import CwdGate.Rbtree.Delete

namespace CwdGate.Rbtree
open Lib List
open ColorTree hiding node

section fields
variable (h h' : RbHeap) (p old new q : Nat) (e : Side)

theorem ite_root (c : Prop) [Decidable c] :
    (if c then h else h').root = if c then h.root else h'.root := apply_ite ..

theorem ite_parent (c : Prop) [Decidable c] :
    (if c then h else h').parent = if c then h.parent else h'.parent := apply_ite ..

theorem ite_kid (c : Prop) [Decidable c] :
    (if c then h else h').kid e q = if c then h.kid e q else h'.kid e q := by
  split <;> rfl

theorem ite_color (c : Prop) [Decidable c] :
    (if c then h else h').color = if c then h.color else h'.color := apply_ite ..

@[simp] theorem changeParentPtr_kid : (changeParentPtr h p old new).kid e q =
    if p ≠ 0 ∧ q = p ∧ h.kid e q = old then new else h.kid e q := by
  unfold changeParentPtr
  cases e <;> grind [RbHeap.setKid_kid, RbHeap.setRoot_kid]

@[simp] theorem changeParentPtr_root : (changeParentPtr h p old new).root =
    if p = 0 ∧ h.root = old then new else h.root := by
  unfold changeParentPtr
  grind [RbHeap.setKid_root, RbHeap.setRoot_root]

@[simp] theorem changeParentPtr_parent : (changeParentPtr h p old new).parent = h.parent := by
  unfold changeParentPtr
  grind [RbHeap.setKid_parent, RbHeap.setRoot_parent]

@[simp] theorem changeParentPtr_color : (changeParentPtr h p old new).color = h.color := by
  unfold changeParentPtr
  grind [RbHeap.setKid_color, RbHeap.setRoot_color]

@[simp] theorem changeChildPtr_parent : (changeChildPtr h p old new).parent q =
    if p ≠ 0 ∧ q = p ∧ h.parent q = old then new else h.parent q := by
  unfold changeChildPtr
  grind [RbHeap.setParent_parent]

@[simp] theorem changeChildPtr_kid : (changeChildPtr h p old new).kid = h.kid := by
  unfold changeChildPtr
  grind [RbHeap.setParent_kid]

@[simp] theorem changeChildPtr_root : (changeChildPtr h p old new).root = h.root := by
  unfold changeChildPtr
  grind [RbHeap.setParent_root]

@[simp] theorem changeChildPtr_color : (changeChildPtr h p old new).color = h.color := by
  unfold changeChildPtr
  grind [RbHeap.setParent_color]

end fields

def exchange (z s q : Nat) : Nat := if q = z then s else if q = s then z else q

/-- The nodes are linked with their neighbours, and `s` is the smallest node to the right of `z`. -/
structure Swappable (h : RbHeap) (nodes : List Nat) (z s : Nat) : Prop where
  ne : z ≠ s
  memz : z ∈ nodes
  mems : s ∈ nodes
  ne_zero : ∀ q ∈ nodes, q ≠ 0
  down : ∀ q ∈ nodes, ∀ e, h.kid e q ≠ 0 → h.kid e q ∈ nodes ∧ h.parent (h.kid e q) = q
  up : ∀ q ∈ nodes, h.parent q ≠ 0 → h.kid .left (h.parent q) = q ∨ h.kid .right (h.parent q) = q
  top : ∀ q ∈ nodes, h.parent q = 0 ↔ h.root = q
  irrefl : ∀ q ∈ nodes, h.parent q ≠ q
  left_s : h.kid .left s = 0
  left_z : h.kid .left z ≠ s
  parent_z : h.parent z ≠ s
  parent_s : h.parent s ≠ 0
  parents : h.parent s ≠ h.parent z

theorem Swappable.fields (hw : Swappable h nodes z s) (hq : q ∈ nodes) :
    (∀ e, (swapNodes h z s).kid e q = exchange z s (h.kid e (exchange z s q))) ∧
    (swapNodes h z s).parent q = exchange z s (h.parent (exchange z s q)) := by
  obtain ⟨ne, memz, mems, ne0, down, up, top, irr, ls, lz, pz, ps, pp⟩ := hw
  have iz := irr z memz
  have is := irr s mems
  have dz := down z memz
  have ds := down s mems
  have dq := down q hq
  have us := up s mems ps
  have uq := up q hq
  have z0 := ne0 z memz
  have s0 := ne0 s mems
  have q0 := ne0 q hq
  clear down up top irr ne0
  have hLz : z ≠ h.kid .left z := by grind
  have hBz : z ≠ h.kid .right s := by grind
  by_cases hr : h.kid .right z = s
  · have sz : h.parent s = z := by grind
    constructor
    · intro e
      have dqe := dq e
      have dze := dz e
      have dse := ds e
      simp only [swapNodes, relinkNeighbours, swapKid, swapParent, swapColor, exchange,
        RbHeap.setKid_kid, RbHeap.setParent_kid, changeParentPtr_kid, changeChildPtr_kid,
        RbHeap.setColor_kid, RbHeap.setColor_parent, iz.symm, hr, and_false, false_and, if_false,
        ne_eq, not_true_eq_false, if_true]
      cases e <;> grind
    · simp only [swapNodes, relinkNeighbours, swapKid, swapParent, swapColor, exchange,
        RbHeap.setKid_parent, RbHeap.setParent_parent, changeParentPtr_kid, changeChildPtr_kid,
        changeParentPtr_parent, changeChildPtr_parent, RbHeap.setColor_kid,
        RbHeap.setColor_parent, iz.symm, pz.symm, hr, ls, ne, hLz, hBz, and_false, false_and,
        if_false, ne_eq, not_true_eq_false, if_true]
      clear dq
      by_cases hqs : q = s
      · grind
      · by_cases hqz : q = z
        · grind
        · grind
  · have sz : h.parent s ≠ z := by grind
    have hRz : z ≠ h.kid .right z := by grind
    have hBs : s ≠ h.kid .right s := by grind
    constructor
    · intro e
      have dqe := dq e
      have dze := dz e
      have dse := ds e
      simp only [swapNodes, relinkNeighbours, swapKid, swapParent, swapColor, exchange,
        RbHeap.setKid_kid, RbHeap.setParent_kid, changeParentPtr_kid, changeChildPtr_kid,
        RbHeap.setColor_kid, RbHeap.setColor_parent, changeParentPtr_parent, iz.symm, sz.symm, hr,
        and_false, false_and, if_false, ne_eq, not_false_eq_true, if_true]
      cases e <;> grind
    · simp only [swapNodes, relinkNeighbours, swapKid, swapParent, swapColor, exchange,
        RbHeap.setKid_parent, RbHeap.setParent_parent, changeParentPtr_kid, changeChildPtr_kid,
        changeParentPtr_parent, changeChildPtr_parent, RbHeap.setColor_kid,
        RbHeap.setColor_parent, iz.symm, pz.symm, is.symm, sz.symm, hr, Ne.symm hr, lz.symm, ls, hLz,
        hRz, hBz, hBs, and_false, false_and, if_false, ne_eq, not_true_eq_false,
        not_false_eq_true, if_true]
      by_cases hqs : q = s
      · grind
      · by_cases hqz : q = z
        · grind
        · grind

theorem relinkNeighbours_color : (relinkNeighbours h z s).color = h.color := by
  simp [relinkNeighbours, ite_color]

theorem swapNodes_color (ne : z ≠ s) : (swapNodes h z s).color q = h.color (exchange z s q) := by
  simp only [swapNodes, swapKid, swapParent, swapColor, RbHeap.setKid_color,
    RbHeap.setParent_color, relinkNeighbours_color, RbHeap.setColor_color, exchange]
  grind

theorem Swappable.root (hw : Swappable h nodes z s) :
    (swapNodes h z s).root = exchange z s h.root := by
  have hz := hw.top z hw.memz
  have hs := hw.top s hw.mems
  have hps := hw.parent_s
  simp only [swapNodes, relinkNeighbours, swapKid, swapParent, swapColor, RbHeap.setKid_root,
    RbHeap.setParent_root, ite_root, changeParentPtr_root, changeChildPtr_root,
    changeParentPtr_parent, RbHeap.setColor_root, RbHeap.setColor_parent, hps, false_and,
    if_false, ite_self, exchange]
  grind

theorem Swappable.null (hw : Swappable h nodes z s) (h0 : Sentinel h) :
    Sentinel (swapNodes h z s) := by
  have z0 := (hw.ne_zero z hw.memz).symm
  have s0 := (hw.ne_zero s hw.mems).symm
  have hguard : ∀ (p : Nat) (c : Prop), (p ≠ 0 ∧ 0 = p ∧ c) ↔ False :=
    fun p c => ⟨fun hp => hp.1 hp.2.1.symm, False.elim⟩
  refine ⟨?_, fun e => ?_, ?_⟩
  · refine Eq.trans ?_ h0.parent
    simp only [swapNodes, relinkNeighbours, swapKid, swapParent, swapColor, RbHeap.setKid_parent,
      RbHeap.setParent_parent, ite_parent, ite_apply, changeParentPtr_parent,
      changeChildPtr_parent, hguard, if_false, RbHeap.setColor_parent, z0, s0, ite_self]
  · refine Eq.trans ?_ (h0.kid e)
    simp only [swapNodes, relinkNeighbours, swapKid, swapParent, swapColor, RbHeap.setKid_kid,
      RbHeap.setParent_kid, ite_kid, changeParentPtr_kid, changeChildPtr_kid, hguard, if_false,
      RbHeap.setColor_kid, z0, s0, and_false, ite_self]
  · rw [swapNodes_color hw.ne, exchange, if_neg z0, if_neg s0]
    exact h0.color

theorem exchange_exchange (z s q : Nat) : exchange z s (exchange z s q) = q := by
  unfold exchange
  grind

theorem exchange_injective : Function.Injective (exchange z s) := fun a b hab => by
  rw [← exchange_exchange z s a, hab, exchange_exchange]

theorem exchange_of_ne (hz : q ≠ z) (hs : q ≠ s) : exchange z s q = q := by
  rw [exchange, if_neg hz, if_neg hs]

theorem exchange_left : exchange z s z = s := if_pos rfl

theorem exchange_right : exchange z s s = z := by
  unfold exchange
  grind

theorem exchange_mem {nodes : List Nat} (hz : z ∈ nodes) (hs : s ∈ nodes) (hq : q ∈ nodes) :
    exchange z s q ∈ nodes := by
  unfold exchange
  split
  · exact hs
  · split
    · exact hz
    · exact hq

theorem Rep.rename (hg : g 0 = 0) (hg' : Function.Injective g) (hr : Rep h t par)
    (he : ∀ q ∈ t.inorder, h'.parent (g q) = g (h.parent q) ∧ h'.color (g q) = h.color q ∧
      ∀ e, h'.kid e (g q) = g (h.kid e q)) : Rep h' (t.map g) (g par) := by
  induction t generalizing par with
  | leaf => trivial
  | node c l x r ihl ihr =>
    obtain ⟨h1, h2, h3, h4, h5, h6, h7⟩ := hr
    obtain ⟨e1, e2, e3⟩ := he x (by simp [ColorTree.inorder])
    refine ⟨fun h0 => h1 (hg' (h0.trans hg.symm)), by rw [e1, h2], by rw [e2, h3], ?_, ?_, ?_, ?_⟩
    · rw [e3, h4, ptr_map hg]
    · rw [e3, h5, ptr_map hg]
    · exact ihl h6 fun q hq => he q (by simp [ColorTree.inorder, hq])
    · exact ihr h7 fun q hq => he q (by simp [ColorTree.inorder, hq])

theorem Swappable.represents (hw : Swappable h t.inorder z s) (hr : Represents h t) :
    Represents (swapNodes h z s) (t.map (exchange z s)) := by
  have z0 := (hw.ne_zero z hw.memz).symm
  have s0 := (hw.ne_zero s hw.mems).symm
  have hg := exchange_of_ne z0 s0
  refine ⟨?_, ?_, ?_, hw.null hr.null⟩
  · change (swapNodes h z s).root = _
    rw [hw.root, ptr_map hg]
    exact congrArg _ hr.frames
  · refine (congrArg _ hg).mp (Rep.rename hg exchange_injective hr.tree fun q hq => ?_)
    have hm := exchange_mem hw.memz hw.mems hq
    obtain ⟨hk, hp⟩ := hw.fields hm
    refine ⟨?_, ?_, fun e => ?_⟩
    · rw [hp, exchange_exchange]
    · rw [swapNodes_color hw.ne, exchange_exchange]
    · rw [hk, exchange_exchange]
  · rw [inorder_map]
    exact List.Nodup.map exchange_injective hr.nodup

theorem Rep.parent_root (hr : Rep h t par) (ht : t.ptr ≠ 0) :
    t.ptr ∈ t.inorder ∧ h.parent t.ptr = par := by
  cases t with
  | leaf => exact absurd rfl ht
  | node c l x r => exact ⟨by simp [ColorTree.ptr, ColorTree.inorder], hr.2.1⟩

theorem Rep.down (hr : Rep h t par) : ∀ q ∈ t.inorder, ∀ e, h.kid e q ≠ 0 →
    h.kid e q ∈ t.inorder ∧ h.parent (h.kid e q) = q := by
  induction t generalizing par with
  | leaf => intro q hq; cases hq
  | node c l x r ihl ihr =>
    obtain ⟨-, -, -, h4, h5, h6, h7⟩ := hr
    have hl : ∀ q ∈ l.inorder, q ∈ (ColorTree.node c l x r).inorder := by simp +contextual [ColorTree.inorder]
    have hr : ∀ q ∈ r.inorder, q ∈ (ColorTree.node c l x r).inorder := by simp +contextual [ColorTree.inorder]
    intro q hq e he
    rcases mem_append.1 hq with hq | hq
    · exact (ihl h6 q hq e he).imp_left (hl _)
    · rcases mem_cons.1 hq with rfl | hq
      · cases e with
        | left =>
          rw [h4] at he ⊢
          exact (h6.parent_root he).imp_left (hl _)
        | right =>
          rw [h5] at he ⊢
          exact (h7.parent_root he).imp_left (hr _)
      · exact (ihr h7 q hq e he).imp_left (hr _)

theorem Rep.up (hr : Rep h t par) (hn : t.inorder.Nodup) : ∀ q ∈ t.inorder,
    (q = t.ptr ∧ h.parent q = par) ∨ (q ≠ t.ptr ∧ h.parent q ∈ t.inorder ∧ h.parent q ≠ q ∧
      (h.kid .left (h.parent q) = q ∨ h.kid .right (h.parent q) = q)) := by
  induction t generalizing par with
  | leaf => intro q hq; cases hq
  | node c l x r ihl ihr =>
    obtain ⟨-, h2, -, h4, h5, h6, h7⟩ := hr
    obtain ⟨⟨hxl, hxr⟩, hln, hrn, -⟩ := (nodup_mk (d := .left) (c := c)).1 hn
    have hx : x ∈ (ColorTree.node c l x r).inorder := by simp [ColorTree.inorder]
    intro q hq
    rcases mem_append.1 hq with hq | hq
    · have hqx := ne_of_mem_of_not_mem hq hxl
      refine .inr ⟨hqx, ?_⟩
      rcases ihl h6 hln q hq with ⟨hqp, hpar⟩ | ⟨-, hpm, hside⟩
      · rw [hpar]
        exact ⟨hx, hqx.symm, .inl (by rw [h4, hqp])⟩
      · exact ⟨mem_append_left _ hpm, hside⟩
    · rcases mem_cons.1 hq with rfl | hq
      · exact .inl ⟨rfl, h2⟩
      · have hqx := ne_of_mem_of_not_mem hq hxr
        refine .inr ⟨hqx, ?_⟩
        rcases ihr h7 hrn q hq with ⟨hqp, hpar⟩ | ⟨-, hpm, hside⟩
        · rw [hpar]
          exact ⟨hx, hqx.symm, .inr (by rw [h5, hqp])⟩
        · exact ⟨mem_append_right _ (mem_cons_of_mem _ hpm), hside⟩

theorem Focus.swappable (hf : Focus h (ctxr ++ ⟨.right, c, z, l⟩ :: ctx) (.node cs .leaf s rs)) :
    Swappable h (fill (ctxr ++ ⟨.right, c, z, l⟩ :: ctx) (.node cs .leaf s rs)).inorder z s := by
  have hrep := represents_fill.2 hf
  have hz : Focus h ctx (.mk .right c z (fill ctxr (.node cs .leaf s rs)) l) := by
    rw [← represents_fill, fill_append] at hf
    exact focus_cons.1 (represents_fill.1 hf)
  obtain ⟨⟨z0, hpz, -, -, hlz⟩, n0, n1, -, n3, n4⟩ := hz.node
  obtain ⟨s0, hps, -, hls, -⟩ := hf.tree
  have hs : s ∈ (fill ctxr (.node cs .leaf s rs)).inorder := by
    rw [inorder_fill]
    simp [ColorTree.inorder]
  -- the parent of `z` is above, the parent of `s` is `z` or below it
  have hP : ∀ q, q ≠ 0 → q ∉ ctxIds ctx → h.parent z ≠ q := by
    intro q hq0 hqc
    rw [hpz]
    rcases @parentOf_mem ctx with hm | hc
    · exact ne_of_mem_of_not_mem hm hqc
    · rw [hc]
      exact Ne.symm hq0
  have hQ : h.parent s ≠ 0 ∧ h.parent s ∉ ctxIds ctx := by
    rw [hps]
    cases ctxr with
    | nil => exact ⟨z0, n0⟩
    | cons f ctxr =>
      refine ⟨hf.frames.1, fun hm => (n4 _ hm).1 ?_⟩
      refine (ctxIds_fill_perm _ _).mem_iff.1 (mem_append_left _ mem_cons_self)
  have hmem : ∀ q, q = z ∨ q ∈ (fill ctxr (.node cs .leaf s rs)).inorder →
      q ∈ (fill (ctxr ++ ⟨.right, c, z, l⟩ :: ctx) (.node cs .leaf s rs)).inorder := by
    intro q hq
    rw [fill_append]
    refine (ctxIds_fill_perm ctx _).mem_iff.1 (mem_append_right _ (mem_mk.2 ?_))
    rcases hq with hq | hq
    · exact .inl hq
    · exact .inr (.inl hq)
  have hne0 := hrep.tree.ne_zero
  have hroot := hrep.frames
  have hup := hrep.tree.up hrep.nodup
  exact
    { ne := fun he => n1 (he ▸ hs)
      memz := hmem z (.inl rfl)
      mems := hmem s (.inr hs)
      ne_zero := hne0
      down := hrep.tree.down
      up := by
        intro q hq hp
        rcases hup q hq with ⟨-, h0⟩ | ⟨-, -, -, hside⟩
        · exact absurd h0 hp
        · exact hside
      top := by
        intro q hq
        rw [hroot]
        rcases hup q hq with ⟨he, h0⟩ | ⟨hne, hpm, -, -⟩
        · exact ⟨fun _ => he.symm, fun _ => h0⟩
        · exact ⟨fun h0 => absurd h0 (hne0 _ hpm), fun he => absurd he.symm hne⟩
      irrefl := by
        intro q hq
        rcases hup q hq with ⟨-, h0⟩ | ⟨-, -, hne, -⟩
        · rw [show h.parent q = 0 from h0]
          exact (hne0 q hq).symm
        · exact hne
      left_s := hls
      left_z := by
        intro he
        have hl : l.ptr = s := hlz.symm.trans he
        refine n3 s hs ?_
        rw [← hl]
        exact ptr_mem fun hleaf => s0 (by rw [← hl, hleaf]; rfl)
      parent_z := hP s s0 fun hm => (n4 s hm).1 hs
      parent_s := hQ.1
      parents := (hP _ hQ.1 hQ.2).symm }

section unlink
variable {h : RbHeap} {ctx : List Frame} {d : Side} {c : Color} {z : Nat} {t ch : ColorTree}

theorem changeParentPtr_eq (hr : RepCtx h ctx z) (hz0 : z ≠ 0) (hz : z ∉ ctxIds ctx) :
    changeParentPtr h (parentOf ctx) z y = setHole h ctx y := by
  cases ctx with
  | nil => rw [changeParentPtr, if_pos (show parentOf [] = 0 from rfl), if_pos (show h.root = z from hr),
      setHole]
  | cons f ctx =>
    obtain ⟨f1, -, -, f4, f5, -, -⟩ := hr
    have hsib : h.kid f.side.other f.x ≠ z := by
      rw [f5]
      intro he
      refine hz (mem_cons_of_mem _ (mem_append_left _ ?_))
      rw [← he]
      exact ptr_mem fun hl => hz0 (by rw [← he, hl]; rfl)
    rw [changeParentPtr, if_neg (show parentOf (f :: ctx) ≠ 0 from f1), setHole]
    obtain ⟨d, c, x, sib⟩ := f
    cases d with
    | left =>
      change h.kid .right x ≠ z at hsib
      simp [parentOf, f4, hsib]
    | right =>
      change h.kid .left x ≠ z at hsib
      simp [parentOf, f4, hsib]

theorem Focus.replace (hf : Focus h ctx (.mk d c z ch .leaf)) :
    let h' := changeChildPtr (changeParentPtr h (parentOf ctx) z ch.ptr) ch.ptr z (parentOf ctx)
    Focus h' ctx ch ∧ h'.parent z = parentOf ctx ∧ h'.color z = c := by
  intro h'
  obtain ⟨⟨z0, hzp, hzc, hzk, -⟩, n0, n1, -, -, n4⟩ := hf.node
  obtain ⟨-, -, -, -, -, hch, -⟩ := rep_mk.1 hf.tree
  have hframes := hf.frames
  rw [ptr_mk] at hframes
  obtain ⟨hn1, hn2, -⟩ := nodup_append.1 hf.nodup
  have hchn := (nodup_mk.1 hn2).2.1
  have heq : h' = changeChildPtr (setHole h ctx ch.ptr) ch.ptr z (parentOf ctx) := by
    rw [← changeParentPtr_eq hframes z0 n0]
  have hparent : ∀ q, h'.parent q =
      if ch.ptr ≠ 0 ∧ q = ch.ptr ∧ h.parent q = z then parentOf ctx else h.parent q := by
    intro q
    rw [heq, changeChildPtr_parent, setHole_parent]
  have hcolor : h'.color = h.color := by rw [heq, changeChildPtr_color, setHole_color]
  have hkid : ∀ q e, h'.kid e q = (setHole h ctx ch.ptr).kid e q := by
    intro q e
    rw [heq, changeChildPtr_kid]
  have hmem : ch.ptr ≠ 0 → ch.ptr ∈ ch.inorder := fun h0 => ptr_mem fun hl => h0 (by rw [hl]; rfl)
  have hout : ∀ q, q ∉ ch.inorder → h'.parent q = h.parent q := by
    intro q hq
    rw [hparent, if_neg fun hc => hq (by rw [hc.2.1]; exact hmem hc.1)]
  refine ⟨⟨?_, ?_, ?_, ?_⟩, ?_, ?_⟩
  · refine setHole_frames hframes hn1 ?_ ?_ ?_
    · rw [heq, changeChildPtr_root]
    · exact fun q hq => ⟨hout q (n4 q hq).1, by rw [hcolor]⟩
    · exact fun q _ s => hkid q s
  · refine hch.reparent hchn fun q hq => ⟨?_, by rw [hcolor], fun e => ?_⟩
    · rw [hparent]
      by_cases hqp : q = ch.ptr
      · have h0 : ch.ptr ≠ 0 := hqp ▸ hch.ne_zero q hq
        rw [if_pos hqp, hqp, if_pos ⟨h0, rfl, (hch.parent_root h0).2⟩]
      · rw [if_neg fun hc => hqp hc.2.1, if_neg hqp]
    · rw [hkid, setHole_kid_of_notMem fun hm => (n4 q hm).1 hq]
  · refine List.Nodup.sublist ?_ (ctxIds_cons_perm d c z ch .leaf ctx |>.nodup_iff.2 hf.nodup)
    exact (sublist_cons_self z _).append_right _
  · have h0c : 0 ∉ ctxIds ctx := fun hm => hframes.ne_zero 0 hm rfl
    refine ⟨?_, fun e => ?_, ?_⟩
    · rw [hout 0 fun hm => hch.ne_zero 0 hm rfl]
      exact hf.null.parent
    · rw [hkid, setHole_kid_of_notMem h0c]
      exact hf.null.kid e
    · rw [hcolor]
      exact hf.null.color
  · rw [hout z n1, hzp]
  · rw [hcolor, hzc]

theorem Settled.frame (hs : Settled h nodes) (hz0 : z ≠ 0) (hz : z ∉ nodes)
    (hroot : h'.root = h.root) (he : ∀ q, q ≠ z → h'.parent q = h.parent q ∧
      h'.color q = h.color q ∧ ∀ e, h'.kid e q = h.kid e q) : Settled h' nodes := by
  obtain ⟨t, m, hrep, rfl, hrb⟩ := hs
  obtain ⟨e1, e2, e3⟩ := he 0 hz0.symm
  refine ⟨t, m, ⟨?_, ?_, hrep.nodup, ?_⟩, rfl, hrb⟩
  · exact hroot.trans hrep.frames
  · exact hrep.tree.congr fun q hq => he q (ne_of_mem_of_not_mem hq hz)
  · exact ⟨e1.trans hrep.null.parent, fun d => (e3 d).trans (hrep.null.kid d),
      e2.trans hrep.null.color⟩

theorem Focus.unlinkNode (hf : Focus h ctx (.mk d c z ch .leaf))
    (ht : (ColorTree.mk d c z ch .leaf).RB c n) (hctx : RBCtx ctx c n) (hfuel : ctx.length < fuel) :
    Settled (unlinkNode fuel h z) (fill ctx ch).inorder := by
  obtain ⟨hf', hpar', hcol'⟩ := hf.replace
  obtain ⟨⟨z0, hzp, -, hzk, hzk'⟩, n0, n1, -⟩ := hf.node
  have hchild : (if h.kid .left z ≠ 0 then h.kid .left z else h.kid .right z) = ch.ptr := by
    cases d with
    | left =>
      change h.kid .right z = 0 at hzk'
      rw [hzk, hzk']
      split
      · rfl
      · next h0 => exact (not_not.1 h0).symm
    | right =>
      change h.kid .left z = 0 at hzk'
      rw [hzk', hzk]
      simp
  have hz : z ∉ (fill ctx ch).inorder := by
    rw [← (ctxIds_fill_perm ctx ch).mem_iff, mem_append, not_or]
    exact ⟨n0, n1⟩
  have hpar1 : (changeParentPtr h (parentOf ctx) z ch.ptr).parent z = parentOf ctx := by
    rw [changeParentPtr_parent, hzp]
  rw [Rbtree.unlinkNode]
  simp only [hchild, hzp, hpar1, hpar', hcol']
  generalize changeChildPtr (changeParentPtr h (parentOf ctx) z ch.ptr) ch.ptr z
    (parentOf ctx) = h₁ at hf' hpar' hcol'
  have hmain : Settled (if c = .red then h₁
      else if h₁.color ch.ptr = .red then if ch.ptr ≠ 0 then h₁.setColor ch.ptr .black else h₁
      else deleteFixup fuel h₁ ch.ptr (parentOf ctx)) (fill ctx ch).inorder := by
    cases c with
    | red =>
      obtain ⟨x, a, b, heq, ha, -⟩ := ht.red_inv d
      have hca : ch = a := by cases d <;> (cases heq; rfl)
      rw [if_pos rfl]
      exact hf'.settled (hca ▸ ha) (hctx.of_red .black)
    | black =>
      cases n with
      | zero => cases d <;> cases ht
      | succ n =>
        obtain ⟨x, a, b, ca, cb, heq, ha, -⟩ := ht.black_inv d
        have hca : ch = a := by cases d <;> (cases heq; rfl)
        subst hca
        rw [hf'.color_ptr, ha.color_eq]
        cases ca with
        | red =>
          obtain ⟨y, a₁, a₂, rfl, ha₁, ha₂⟩ := ha.red_inv .left
          rw [if_pos rfl, ptr_mk, if_pos (rep_mk.1 hf'.tree).1]
          exact ((hf'.setColor .black).settled (ha₁.mk_black _ ha₂) hctx).congr
            (inorder_fill_congr ctx rfl)
        | black =>
          exact hf'.deleteFixupLoop ha hctx hfuel
  refine hmain.frame z0 hz rfl fun q hq => ?_
  simp [hq]

end unlink

section find
variable {cmp : K → K → Ordering} [Std.TransCmp cmp] {t : RbTree K} {k : K}

theorem findLessEqualLoop_spec {s : ColorTree} {par fuel : Nat} {result : Option Nat}
    (hr : Rep t.heap s par) (hs : s.inorder.Pairwise fun a b => cmp (t.key a) (t.key b) = .lt)
    (hfuel : s.inorder.length < fuel) :
    (∃ z ∈ s.inorder, cmp k (t.key z) = .eq ∧
      findLessEqualLoop cmp t k fuel s.ptr result = (true, some z)) ∨
    ((∀ q ∈ s.inorder, cmp k (t.key q) ≠ .eq) ∧
      (findLessEqualLoop cmp t k fuel s.ptr result).1 = false) := by
  induction s generalizing par fuel result with
  | leaf =>
    obtain ⟨fuel, rfl⟩ : ∃ j, fuel = j + 1 := ⟨fuel - 1, by omega⟩
    exact .inr ⟨forall_mem_nil _, by rw [findLessEqualLoop, ptr_leaf, if_pos rfl]⟩
  | node c l x r ihl ihr =>
    obtain ⟨fuel, rfl⟩ : ∃ j, fuel = j + 1 := ⟨fuel - 1, by omega⟩
    obtain ⟨hx0, -, -, hl, hr', hrl, hrr⟩ := hr
    obtain ⟨hsl, hsr, hslr⟩ := pairwise_append.1 hs
    obtain ⟨hsx, hsr⟩ := pairwise_cons.1 hsr
    simp only [ColorTree.inorder, length_append, length_cons] at hfuel
    rw [findLessEqualLoop, if_neg (show (ColorTree.node c l x r).ptr ≠ 0 from hx0)]
    simp only [ptr_node, hl, hr']
    cases hc : cmp k (t.key x) with
    | eq => exact .inl ⟨x, by simp [ColorTree.inorder], hc, rfl⟩
    | lt =>
      rcases ihl hrl hsl (show _ < fuel by omega) with ⟨z, hz, hres⟩ | ⟨hno, hres⟩
      · exact .inl ⟨z, mem_append_left _ hz, hres⟩
      · refine .inr ⟨forall_mem_append.2 ⟨hno, forall_mem_cons.2 ⟨?_, fun q hq => ?_⟩⟩, hres⟩
        · rw [hc]; decide
        · rw [Std.TransCmp.lt_trans hc (hsx q hq)]; decide
    | gt =>
      rcases ihr hrr hsr (show _ < fuel by omega) with ⟨z, hz, hres⟩ | ⟨hno, hres⟩
      · exact .inl ⟨z, mem_append_right _ (mem_cons_of_mem _ hz), hres⟩
      · refine .inr ⟨forall_mem_append.2 ⟨fun q hq => ?_, forall_mem_cons.2 ⟨?_, hno⟩⟩, hres⟩
        · have hqx := Std.OrientedCmp.gt_of_lt (hslr q hq x mem_cons_self)
          rw [Std.TransCmp.gt_trans hc hqx]; decide
        · rw [hc]; decide

theorem Inv.rbtreeSearch (hi : Inv cmp t tr) (k : K) :
    (∃ z ∈ tr.inorder, cmp k (t.key z) = .eq ∧ rbtreeSearch cmp t k = some z) ∨
    ((∀ q ∈ tr.inorder, cmp k (t.key q) ≠ .eq) ∧ rbtreeSearch cmp t k = none) := by
  have hroot : t.heap.root = tr.ptr := hi.rep.frames
  have hfuel : tr.inorder.length < t.count + 1 := by
    rw [hi.count]
    exact Nat.lt_succ_self _
  have hspec := @findLessEqualLoop_spec K cmp _ t k tr 0 _ none hi.rep.tree hi.sorted hfuel
  rw [Rbtree.rbtreeSearch, rbtreeFindLessEqual, hroot]
  rcases hspec with ⟨z, hz, hk, hres⟩ | ⟨hno, hres⟩
  · exact .inl ⟨z, hz, hk, by rw [hres]; rfl⟩
  · exact .inr ⟨hno, by rw [hres]; rfl⟩

theorem smallest_spec (hr : Rep h s par) (hs : s ≠ .leaf) (hfuel : s.inorder.length ≤ fuel) :
    ∃ ctx c x r, s = fill ctx (.node c .leaf x r) ∧ (∀ f ∈ ctx, f.side = .left) ∧
      smallest h fuel s.ptr = x := by
  induction s generalizing par fuel with
  | leaf => exact absurd rfl hs
  | node c l x r ihl _ =>
    obtain ⟨-, -, -, hl, -, hrl, -⟩ := hr
    simp only [ColorTree.inorder, length_append, length_cons] at hfuel
    obtain ⟨fuel, rfl⟩ : ∃ j, fuel = j + 1 := ⟨fuel - 1, by omega⟩
    rw [smallest]
    simp only [ptr_node, hl]
    by_cases hleaf : l = .leaf
    · subst hleaf
      exact ⟨[], c, x, r, rfl, forall_mem_nil _, if_neg (by simp)⟩
    · rw [if_pos (hrl.ptr_ne_zero hleaf)]
      obtain ⟨ctx, c', y, u, hl', hleft, hres⟩ := ihl hrl hleaf (show _ ≤ fuel by omega)
      refine ⟨ctx ++ [⟨.left, c, x, r⟩], c', y, u, ?_, ?_, hres⟩
      · rw [fill_append, ← hl']
        rfl
      · exact forall_mem_append.2 ⟨hleft, forall_mem_singleton.2 rfl⟩

end find

section delete
variable {K : Type} {cmp : K → K → Ordering} [Std.TransCmp cmp] {t : RbTree K} {tr : ColorTree}

theorem exists_fill (hx : x ∈ s.inorder) : ∃ ctx c l r, s = fill ctx (.node c l x r) := by
  induction s with
  | leaf => cases hx
  | node c l y r ihl ihr =>
    rcases mem_append.1 hx with hx | hx
    · obtain ⟨ctx, c', l', r', rfl⟩ := ihl hx
      exact ⟨ctx ++ [⟨.left, c, y, r⟩], c', l', r', by rw [fill_append]; rfl⟩
    · rcases mem_cons.1 hx with rfl | hx
      · exact ⟨[], c, l, r, rfl⟩
      · obtain ⟨ctx, c', l', r', rfl⟩ := ihr hx
        exact ⟨ctx ++ [⟨.right, c, y, l⟩], c', l', r', by rw [fill_append]; rfl⟩

theorem erase_append_cons {A B : List Nat} {z : Nat} (hn : (A ++ z :: B).Nodup) :
    (A ++ z :: B).erase z = A ++ B := by
  have hz : z ∉ A := fun hm => (nodup_append.1 hn).2.2 z hm z mem_cons_self rfl
  rw [erase_append_right _ hz, erase_cons_head]

theorem Represents.unlink_single {h : RbHeap} {ctx : List Frame} {d : Side} {c : Color}
    {z m fuel : Nat} {ch : ColorTree} (hr : Represents h (fill ctx (.mk d c z ch .leaf)))
    (hrb : (fill ctx (.mk d c z ch .leaf)).RB .black m)
    (hfuel : (fill ctx (.mk d c z ch .leaf)).inorder.length < fuel) :
    Settled (unlinkNode fuel h z) ((fill ctx (.mk d c z ch .leaf)).inorder.erase z) := by
  have hf := represents_fill.1 hr
  obtain ⟨c', n, ht, hctx⟩ := RBCtx.of_fill hrb
  have hcc : c' = c := by rw [← ht.color_eq, color_mk]
  subst hcc
  have hlen : ctx.length < fuel := by
    have h1 := (ctxIds_fill_perm ctx (.mk d c' z ch .leaf)).length_eq
    have h2 := length_le_ctxIds ctx
    rw [length_append] at h1
    omega
  refine (hf.unlinkNode ht hctx hlen).congr ?_
  have hnd := hr.nodup
  have hin : (ColorTree.mk d c' z ch .leaf).inorder = ch.inorder ++ [z] ∨
      (ColorTree.mk d c' z ch .leaf).inorder = z :: ch.inorder := by
    cases d with
    | left => exact .inl rfl
    | right => exact .inr rfl
  rw [inorder_fill] at hnd
  rw [inorder_fill, inorder_fill]
  rcases hin with hin | hin
  · rw [hin, show before ctx ++ (ch.inorder ++ [z] ++ after ctx) =
      (before ctx ++ ch.inorder) ++ z :: after ctx by simp] at hnd ⊢
    rw [erase_append_cons hnd, append_assoc]
  · rw [hin] at hnd ⊢
    exact (erase_append_cons hnd).symm

theorem Represents.unlink_swapped {h : RbHeap} {ctx ctxr : List Frame} {c cs : Color}
    {z s m fuel : Nat} {l rs : ColorTree} (hleft : ∀ f ∈ ctxr, f.side = .left)
    (hr : Represents h (fill (ctxr ++ ⟨.right, c, z, l⟩ :: ctx) (.node cs .leaf s rs)))
    (hrb : (fill (ctxr ++ ⟨.right, c, z, l⟩ :: ctx) (.node cs .leaf s rs)).RB .black m)
    (hfuel : (fill (ctxr ++ ⟨.right, c, z, l⟩ :: ctx) (.node cs .leaf s rs)).inorder.length < fuel) :
    Settled (unlinkNode fuel (swapNodes h z s) z)
      ((fill (ctxr ++ ⟨.right, c, z, l⟩ :: ctx) (.node cs .leaf s rs)).inorder.erase z) := by
  have hw := (represents_fill.1 hr).swappable
  have hrep := hw.represents hr
  have hrb' := hrb.map (exchange z s)
  rw [map_fill, ColorTree.map, exchange_right] at hrep hrb'
  have hin : (fill ((ctxr ++ ⟨.right, c, z, l⟩ :: ctx).map (Frame.map (exchange z s)))
      (.mk .right cs z (rs.map (exchange z s)) .leaf)).inorder =
      (fill (ctxr ++ ⟨.right, c, z, l⟩ :: ctx) (.node cs .leaf s rs)).inorder.map
        (exchange z s) := by
    rw [← inorder_map, map_fill, ColorTree.map, exchange_right]
    rfl
  have hlen := hfuel
  rw [← length_map, ← hin] at hlen
  have hres := Represents.unlink_single (d := .right) hrep hrb' hlen
  refine hres.congr ?_
  rw [hin]
  -- in order, `z` is right before `s`
  have hnd : (fill (ctxr ++ ⟨.right, c, z, l⟩ :: ctx) (.node cs .leaf s rs)).inorder.Nodup :=
    hr.nodup
  rw [inorder_fill, before_left hleft] at hnd ⊢
  generalize after (ctxr ++ ⟨.right, c, z, l⟩ :: ctx) = B at hnd ⊢
  have hsplit : before (⟨.right, c, z, l⟩ :: ctx) ++ ((ColorTree.node cs .leaf s rs).inorder ++ B) =
      (before ctx ++ l.inorder) ++ z :: s :: (rs.inorder ++ B) := by
    simp [before, ColorTree.inorder]
  rw [hsplit] at hnd ⊢
  generalize before ctx ++ l.inorder = A, rs.inorder ++ B = B' at hnd ⊢
  have hnd' : ((A ++ [s]) ++ z :: B').Nodup := by
    refine (List.Perm.nodup_iff ?_).1 hnd
    rw [append_assoc]
    exact (List.Perm.swap s z B').append_left A
  obtain ⟨-, hzs, hA⟩ := nodup_append.1 hnd
  obtain ⟨hz, hs⟩ := nodup_cons.1 hzs
  have hs' := (nodup_cons.1 hs).1
  have hfix : ∀ L : List Nat, z ∉ L → s ∉ L → L.map (exchange z s) = L := by
    intro L hz hs
    refine (map_congr_left fun q hq => ?_).trans (map_id L)
    exact exchange_of_ne (ne_of_mem_of_not_mem hq hz) (ne_of_mem_of_not_mem hq hs)
  rw [erase_append_cons hnd, map_append, map_cons, map_cons, exchange_left,
    exchange_right, hfix A (fun hm => hA z hm z (by simp) rfl) (fun hm => hA s hm s (by simp) rfl),
    hfix B' (fun hm => hz (mem_cons_of_mem _ hm)) hs',
    show A ++ s :: z :: B' = (A ++ [s]) ++ z :: B' by simp, erase_append_cons hnd']
  simp

theorem Inv.rbtreeDelete (hi : Inv cmp t tr) (k : K) :
    (∃ z ∈ tr.inorder, cmp k (t.key z) = .eq ∧ (rbtreeDelete cmp t k).2 = some z ∧
      (rbtreeDelete cmp t k).1.key = t.key ∧
      ∃ tr', Inv cmp (rbtreeDelete cmp t k).1 tr' ∧ tr'.inorder = tr.inorder.erase z) ∨
    ((∀ q ∈ tr.inorder, cmp k (t.key q) ≠ .eq) ∧ rbtreeDelete cmp t k = (t, none)) := by
  rcases hi.rbtreeSearch k with ⟨z, hz, hk, hres⟩ | ⟨hno, hres⟩
  · refine .inl ⟨z, hz, hk, ?_⟩
    obtain ⟨m, hrb⟩ := hi.balanced
    have hset : Settled (unlinkNode (t.count + 1)
        (if t.heap.kid .left z ≠ 0 ∧ t.heap.kid .right z ≠ 0 then
          swapNodes t.heap z (smallest t.heap t.count (t.heap.kid .right z)) else t.heap) z)
        (tr.inorder.erase z) := by
      have hfuel : tr.inorder.length < t.count + 1 := by
        rw [hi.count]
        exact Nat.lt_succ_self _
      obtain ⟨ctx, c, l, r, rfl⟩ := exists_fill hz
      have hf := represents_fill.1 hi.rep
      obtain ⟨z0, -, -, hl, hr, hrl, hrr⟩ := hf.tree
      by_cases hll : l = .leaf
      · subst hll
        rw [if_neg fun hc => hc.1 hl]
        exact Represents.unlink_single (d := .right) hi.rep hrb hfuel
      by_cases hrleaf : r = .leaf
      · subst hrleaf
        rw [if_neg fun hc => hc.2 hr]
        exact Represents.unlink_single (d := .left) hi.rep hrb hfuel
      have hlen : r.inorder.length ≤ t.count := by
        rw [hi.count, inorder_fill]
        simp only [ColorTree.inorder, length_append, length_cons]
        omega
      obtain ⟨ctxr, cs, s, rs, rfl, hleft, hsm⟩ := smallest_spec hrr hrleaf hlen
      rw [if_pos ⟨hl ▸ hrl.ptr_ne_zero hll, hr ▸ hrr.ptr_ne_zero hrleaf⟩, hr, hsm]
      have heq : fill ctx (.node c l z (fill ctxr (.node cs .leaf s rs))) =
          fill (ctxr ++ ⟨.right, c, z, l⟩ :: ctx) (.node cs .leaf s rs) := by
        rw [fill_append]
        rfl
      have hrep := hi.rep
      rw [heq] at hrep hrb hfuel ⊢
      exact hrep.unlink_swapped hleft hrb hfuel
    obtain ⟨tr', m', hrep', hin, hrb'⟩ := hset
    rw [Rbtree.rbtreeDelete, hres]
    refine ⟨rfl, rfl, tr', ⟨hrep', ⟨m', hrb'⟩, ?_, ?_⟩, hin⟩
    · rw [hin]
      exact hi.sorted.sublist erase_sublist
    · rw [hin, length_erase_of_mem hz, hi.count]
  · refine .inr ⟨hno, ?_⟩
    rw [Rbtree.rbtreeDelete, hres]

end delete

open Function

/-- A call on a tree. The caller has set the key of a node it inserts. -/
inductive Op (K : Type) where
  | insert (data : Nat) (key : K)
  | delete (key : K)

section run
variable {K : Type} (cmp : K → K → Ordering)

def RbTree.setKey (t : RbTree K) (x : Nat) (k : K) : RbTree K :=
  { t with key := Function.update t.key x k }

def step (t : RbTree K) : Op K → RbTree K × Option Nat
  | .insert data key => rbtreeInsert cmp (t.setKey data key) data
  | .delete key => rbtreeDelete cmp t key

def run (t : RbTree K) (ops : List (Op K)) : RbTree K := ops.foldl (fun t op => (step cmp t op).1) t

def collect (h : RbHeap) : Nat → Nat → List Nat
  | fuel + 1, p =>
    if p = 0 then [] else collect h fuel (h.kid .left p) ++ p :: collect h fuel (h.kid .right p)
  | 0, _ => []

def RbTree.nodes (t : RbTree K) : List Nat := collect t.heap t.count t.heap.root

/-- Inserted nodes are real nodes, and the key of a node is not changed while it is in the
tree. -/
def Op.Legal (t : RbTree K) : Op K → Prop
  | .insert data key => data ≠ 0 ∧ (data ∈ t.nodes → t.key data = key)
  | .delete _ => True

instance [DecidableEq K] (t : RbTree K) : (op : Op K) → Decidable (op.Legal t)
  | .insert data key => inferInstanceAs (Decidable (data ≠ 0 ∧ (data ∈ t.nodes → t.key data = key)))
  | .delete _ => inferInstanceAs (Decidable True)

def LegalRun (t : RbTree K) : List (Op K) → Prop
  | [] => True
  | op :: ops => op.Legal t ∧ LegalRun (step cmp t op).1 ops

instance LegalRun.decidable [DecidableEq K] : (t : RbTree K) → (ops : List (Op K)) →
    Decidable (LegalRun cmp t ops)
  | _, [] => inferInstanceAs (Decidable True)
  | t, op :: ops => @instDecidableAnd _ _ _ (LegalRun.decidable (step cmp t op).1 ops)

variable {cmp} {t : RbTree K} {tr : ColorTree}

theorem collect_eq (hr : Rep h s par) (hfuel : s.inorder.length ≤ fuel) :
    collect h fuel s.ptr = s.inorder := by
  induction s generalizing par fuel with
  | leaf => cases fuel <;> rfl
  | node c l x r ihl ihr =>
    obtain ⟨hx0, -, -, hl, hr', hrl, hrr⟩ := hr
    simp only [ColorTree.inorder, List.length_append, List.length_cons] at hfuel
    obtain ⟨fuel, rfl⟩ : ∃ j, fuel = j + 1 := ⟨fuel - 1, by omega⟩
    rw [collect, ptr_node, if_neg hx0, hl, hr', ihl hrl (by omega), ihr hrr (by omega),
      ColorTree.inorder]

theorem Inv.nodes_eq (hi : Inv cmp t tr) : t.nodes = tr.inorder := by
  have hroot := hi.rep.frames
  rw [RbTree.nodes, hroot]
  exact collect_eq hi.rep.tree (Nat.le_of_eq hi.count.symm)

theorem Inv.init (h : RbHeap) (key : Nat → K) : Inv cmp (rbtreeInit h key) .leaf where
  rep := ⟨rfl, trivial, List.nodup_nil, ⟨rfl, fun _ => rfl, rfl⟩⟩
  balanced := ⟨0, .leaf⟩
  sorted := .nil
  count := rfl

theorem Inv.setKey (hi : Inv cmp t tr) (hx : x ∈ tr.inorder → t.key x = k) :
    Inv cmp (t.setKey x k) tr := by
  have hkey : ∀ q ∈ tr.inorder, (t.setKey x k).key q = t.key q := by
    intro q hq
    by_cases hqx : q = x
    · subst hqx
      rw [RbTree.setKey, hx hq]
      exact update_self ..
    · exact update_of_ne hqx _ _
  refine { hi with sorted := hi.sorted.imp_of_mem fun {a b} ha hb hab => ?_ }
  rw [hkey a ha, hkey b hb]
  exact hab

variable [Std.TransCmp cmp]

theorem Inv.step (hi : Inv cmp t tr) (hop : op.Legal t) :
    ∃ tr', Inv cmp (Rbtree.step cmp t op).1 tr' := by
  cases op with
  | insert x k =>
    obtain ⟨hx0, hx⟩ := hop
    rw [hi.nodes_eq] at hx
    have hi' := hi.setKey hx
    rcases hi'.rbtreeInsert hx0 with ⟨-, heq⟩ | ⟨-, -, -, tr', h', -⟩
    · rw [Rbtree.step, heq]
      exact ⟨tr, hi'⟩
    · exact ⟨tr', h'⟩
  | delete k =>
    rcases hi.rbtreeDelete k with ⟨z, -, -, -, -, tr', h', -⟩ | ⟨-, heq⟩
    · exact ⟨tr', h'⟩
    · rw [Rbtree.step, heq]
      exact ⟨tr, hi⟩

theorem Inv.run (hi : Inv cmp t tr) (hops : LegalRun cmp t ops) :
    ∃ tr', Inv cmp (Rbtree.run cmp t ops) tr' := by
  induction ops generalizing t tr with
  | nil => exact ⟨tr, hi⟩
  | cons op ops ih =>
    obtain ⟨tr', hi'⟩ := hi.step hops.1
    exact ih hi' hops.2

def InsertSpec (cmp : K → K → Ordering) (t : RbTree K) (x : Nat) (k : K) : Prop :=
  ((∃ q ∈ t.nodes, cmp k (t.key q) = .eq) ∧
      Rbtree.step cmp t (.insert x k) = (t.setKey x k, none)) ∨
    ((∀ q ∈ t.nodes, cmp k (t.key q) ≠ .eq) ∧ (Rbtree.step cmp t (.insert x k)).2 = some x ∧
      (Rbtree.step cmp t (.insert x k)).1.nodes.Perm (x :: t.nodes) ∧
      (Rbtree.step cmp t (.insert x k)).1.key = (t.setKey x k).key)

def DeleteSpec (cmp : K → K → Ordering) (t : RbTree K) (k : K) : Prop :=
  (∃ z ∈ t.nodes, cmp k (t.key z) = .eq ∧ (Rbtree.step cmp t (.delete k)).2 = some z ∧
      (Rbtree.step cmp t (.delete k)).1.nodes = t.nodes.erase z ∧
      (Rbtree.step cmp t (.delete k)).1.key = t.key) ∨
    ((∀ q ∈ t.nodes, cmp k (t.key q) ≠ .eq) ∧ Rbtree.step cmp t (.delete k) = (t, none))

theorem Inv.insertSpec (hi : Inv cmp t tr) (hop : (Op.insert x k).Legal t) :
    InsertSpec cmp t x k := by
  obtain ⟨hx0, hx⟩ := hop
  have hnodes := hi.nodes_eq
  rw [hnodes] at hx
  have hi' := hi.setKey hx
  have hkx : (t.setKey x k).key x = k := update_self ..
  have hkey : ∀ q ∈ tr.inorder, (t.setKey x k).key q = t.key q := by
    intro q hq
    by_cases hqx : q = x
    · subst hqx
      rw [hkx, hx hq]
    · exact update_of_ne hqx _ _
  rw [InsertSpec, hnodes]
  rcases hi'.rbtreeInsert hx0 with ⟨⟨q, hq, hqe⟩, heq⟩ | ⟨hno, hsome, hkeys, tr', h', hperm⟩
  · rw [hkx, hkey q hq] at hqe
    exact .inl ⟨⟨q, hq, hqe⟩, heq⟩
  · refine .inr ⟨fun q hq => ?_, hsome, ?_, hkeys⟩
    · have := hno q hq
      rwa [hkx, hkey q hq] at this
    · rw [Rbtree.step, h'.nodes_eq]
      exact hperm

theorem Inv.deleteSpec (hi : Inv cmp t tr) (k : K) : DeleteSpec cmp t k := by
  rw [DeleteSpec, hi.nodes_eq]
  rcases hi.rbtreeDelete k with ⟨z, hz, hk, hsome, hkeys, tr', h', hin⟩ | hno
  · refine .inl ⟨z, hz, hk, hsome, ?_, hkeys⟩
    rw [Rbtree.step, h'.nodes_eq, hin]
  · exact .inr hno

end run

/-- Every sequence of calls leaves a red-black search tree of the nodes that are in. -/
theorem rbtree_run_correct {K : Type} (cmp : K → K → Ordering) [Std.TransCmp cmp] (h : RbHeap)
    (key : Nat → K) (ops : List (Op K)) (hops : LegalRun cmp (rbtreeInit h key) ops) :
    let t := run cmp (rbtreeInit h key) ops
    (∃ tr, Inv cmp t tr ∧ t.nodes = tr.inorder) ∧
    (∀ x k, (Op.insert x k).Legal t → InsertSpec cmp t x k) ∧ ∀ k, DeleteSpec cmp t k := by
  intro t
  obtain ⟨tr, hi⟩ := (Inv.init h key).run hops
  exact ⟨⟨tr, hi, hi.nodes_eq⟩, fun x k hop => hi.insertSpec hop, hi.deleteSpec⟩

theorem rbtree_run_correct_example :
    ∃ tr, Inv compare (run compare (rbtreeInit ⟨0, id, fun _ => id, fun _ => .red⟩ id)
      [.insert 1 10, .insert 2 20, .insert 3 30, .delete 20]) tr := by
  obtain ⟨⟨tr, h, -⟩, -⟩ := rbtree_run_correct (K := Nat) compare
    ⟨0, id, fun _ => id, fun _ => .red⟩ id
    [.insert 1 10, .insert 2 20, .insert 3 30, .delete 20] (by decide)
  exact ⟨tr, h⟩

/-- Whether a node has the key, and the last of the nodes whose key is not greater. -/
def lessEqual (cmp : K → K → Ordering) (key : Nat → K) (k : K) (nodes : List Nat) :
    Bool × Option Nat :=
  (nodes.any fun q => cmp (key q) k = .eq, (nodes.filter fun q => (cmp (key q) k).isLE).getLast?)

theorem findLessEqualLoop_eq {cmp : K → K → Ordering} [Std.TransCmp cmp] {s : ColorTree}
    (hr : Rep t.heap s par) (hs : s.inorder.Pairwise fun a b => cmp (t.key a) (t.key b) = .lt)
    (hfuel : s.height < fuel) : findLessEqualLoop cmp t k fuel s.ptr result =
      (lessEqual cmp t.key k s.inorder).map id (·.or result) := by
  induction s generalizing par fuel result with
  | leaf =>
    obtain ⟨fuel, rfl⟩ := Nat.exists_eq_add_of_lt hfuel
    simp [findLessEqualLoop, lessEqual, ColorTree.inorder]
  | node c l x r ihl ihr =>
    obtain ⟨fuel, rfl⟩ : ∃ j, fuel = j + 1 := ⟨fuel - 1, by omega⟩
    obtain ⟨hx0, -, -, hl, hr', hrl, hrr⟩ := hr
    obtain ⟨hsl, hsr, hslr⟩ := pairwise_append.1 hs
    obtain ⟨hsx, hsr⟩ := pairwise_cons.1 hsr
    rw [ColorTree.height] at hfuel
    rw [findLessEqualLoop, ptr_node, if_neg hx0, hl, hr', ihl hrl hsl (by omega),
      ihr hrr hsr (by omega)]
    have hleft (hx : (cmp (t.key x) k).isLE) (q : Nat) (hq : q ∈ l.inorder) :
        cmp (t.key q) k = .lt := Std.TransCmp.lt_of_lt_of_isLE (hslr q hq x mem_cons_self) hx
    have hright (hx : (cmp k (t.key x)).isLE) (q : Nat) (hq : q ∈ r.inorder) :
        cmp (t.key q) k = .gt :=
      Std.OrientedCmp.gt_of_lt (Std.TransCmp.lt_of_isLE_of_lt hx (hsx q hq))
    have hnil (hx : (cmp k (t.key x)).isLE) :
        r.inorder.filter (fun q => (cmp (t.key q) k).isLE) = [] := by
      simp +contextual [hright hx]
    have hswap : cmp (t.key x) k = (cmp k (t.key x)).swap := Std.OrientedCmp.eq_swap
    cases hc : cmp k (t.key x) with
    | eq => simp [lessEqual, ColorTree.inorder, hswap, hc, hnil]
    | lt =>
      have hany : r.inorder.any (fun q => cmp (t.key q) k = .eq) = false := by
        simp +contextual [hright, hc]
      simp [lessEqual, ColorTree.inorder, hswap, hc, hnil, hany]
    | gt =>
      have hany : l.inorder.any (fun q => cmp (t.key q) k = .eq) = false := by
        simp +contextual [hleft, hswap, hc]
      simp [lessEqual, ColorTree.inorder, hswap, hc, hany, getLast?_cons]

/-- The search finds the greatest node not above the key, in logarithmically many rounds. -/
theorem rbtree_find_less_equal_greatest {K : Type} (cmp : K → K → Ordering) [Std.TransCmp cmp]
    (h : RbHeap) (key : Nat → K) (ops : List (Op K)) (hops : LegalRun cmp (rbtreeInit h key) ops)
    (k : K) :
    let t := run cmp (rbtreeInit h key) ops
    ∀ rounds > 2 * (t.count + 1).log2,
      findLessEqualLoop cmp t k rounds t.heap.root none = lessEqual cmp t.key k t.nodes := by
  intro t rounds hrounds
  obtain ⟨tr, hi⟩ := (Inv.init h key).run hops
  obtain ⟨m, hm⟩ := hi.balanced
  have hroot : t.heap.root = tr.ptr := hi.rep.frames
  have hfuel : tr.height < rounds := Nat.lt_of_le_of_lt (hi.count ▸ hm.height_le) hrounds
  rw [hroot, findLessEqualLoop_eq hi.rep.tree hi.sorted hfuel, hi.nodes_eq]
  exact Prod.ext rfl Option.or_none

theorem rbtree_find_less_equal_greatest_two :
    findLessEqualLoop compare (run compare (rbtreeInit ⟨0, id, fun _ => id, fun _ => .red⟩ id)
      [.insert 1 10, .insert 2 20]) 15 3 1 none = (false, some 1) :=
  rbtree_find_less_equal_greatest (K := Nat) compare _ _ _ (by decide) 15 3 (by decide)

end CwdGate.Rbtree

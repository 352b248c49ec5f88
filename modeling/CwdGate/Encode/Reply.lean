import CwdGate.Encode.Names
import CwdGate.Encode.Bounds

namespace CwdGate.Encode
open Lib List

structure Question where
  qname : Name
  qtype : UInt16
  qclass : UInt16
  deriving DecidableEq

def QuestionAt (s : EncState) (pos : Nat) (q : Question) (stop : Nat) : Prop :=
  ∃ next, NameEnd noHole s pos q.qname next ∧
    Holds (frozen noHole s) s.pkt.data next (u16Bytes q.qtype.toNat ++ u16Bytes q.qclass.toNat) ∧
    stop = next + 4

theorem QuestionAt.transfer (h : Preserves noHole noHole s t) (hq : QuestionAt s pos q stop) :
    QuestionAt t pos q stop := by
  obtain ⟨next, hn, hh, hstop⟩ := hq
  exact ⟨next, hn.transfer h, hh.mono h, hstop⟩

def replyQuestion (qinfo : QueryInfo) : Question :=
  ⟨questionName qinfo, qinfo.qtype, qinfo.qclass⟩

theorem questionName_ok (qinfo : QueryInfo) : ValidName (questionName qinfo) := by
  unfold questionName
  split
  · rename_i rrset _
    exact rrset.dname_ok
  · exact qinfo.qname_ok

theorem lookupSpec_null : LookupSpec .null d [] (some id) 0 where
  le := Nat.zero_le _
  chain := rfl
  all _ _ := nofun
  found := nofun
  longest _ _ _ := nofun
  place _ := ⟨id, rfl, [], [], rfl, nofun, nofun, fun v => by simp⟩

section query
variable {s : EncState} {qinfo : QueryInfo}

/-- A query name in the packet is the query name. -/
def QnameInPlace (qinfo : QueryInfo) (data : Nat → UInt8) : Prop :=
  qinfo.inPacket = true → Holds (fun _ => True) data 12 (wire qinfo.qname)

theorem writeQname_spec (hpos : s.pkt.position = 12) (hq : QnameInPlace qinfo s.pkt.data) :
    Prog.Spec Grow (writeQname qinfo) s fun _ t => t.tree = s.tree ∧ t.names = s.names ∧
      t.pkt.position = 12 + wireLen (questionName qinfo) ∧
      Holds (frozen noHole t) t.pkt.data 12 (wire (questionName qinfo)) := by
  unfold writeQname
  split
  · rename_i h
    have hname : questionName qinfo = qinfo.qname := by
      unfold questionName
      rw [Option.isNone_iff_eq_none.1 h.2]
    refine (spec_skip _).mono ?_
    rintro _ _ - rfl
    refine ⟨rfl, rfl, by rw [← hpos]; rfl, ?_⟩
    rw [hname]
    refine (hq h.1).restrict fun i h1 h2 => ⟨h1, ?_, id⟩
    rw [length_wire, ← hpos] at h2
    exact h2
  · refine spec_emit.mono ?_
    rintro _ _ - rfl
    refine ⟨rfl, rfl, by simp [hpos], ?_⟩
    rw [← hpos]
    exact Sbuffer.holds_write fun i h1 h2 => ⟨by omega, h2, id⟩

theorem insertQuery_spec (hpos : s.pkt.position = 12) (htree : s.tree = .null)
    (hnames : s.names = []) (hq : QnameInPlace qinfo s.pkt.data) :
    Prog.Spec Grow (insertQuery qinfo) s fun _ t => EncInv noHole t ∧
      QuestionAt t 12 (replyQuestion qinfo) t.pkt.position := by
  have hd := questionName_ok qinfo
  refine spec_bind_need fun _ => ?_
  apply spec_bind_read
  refine spec_bind spec_recordName ?_
  rintro _ s1 h1 rfl
  refine spec_bind (compressTreeStore_spec
    (G := fun n => ∃ labs, ∃ k < (questionName qinfo).length,
      labelOffset s.pkt.position (questionName qinfo) k ≤ 0x3fff ∧ n =
        ⟨(questionName qinfo).drop k, labs, labelOffset s.pkt.position (questionName qinfo) k⟩)
    (htree ▸ TreeOk.null) (htree ▸ nofun) (htree ▸ lookupSpec_null)
    fun i hi ho => ⟨_, i, hi, ho, rfl⟩) ?_
  rintro _ s2 h2 ⟨hok, hall, region, hs2⟩
  have hpkt : s2.pkt = s.pkt := by rw [hs2]
  refine spec_bind (writeQname_spec (by rw [hpkt, hpos]) (hpkt ▸ hq)) ?_
  rintro _ s3 h3 ⟨htree3, hnames3, hpos3, hw⟩
  have hlit := literalAt_of_wire hw
  have hnodes : s3.tree.All (NodeAt noHole s3) := by
    rw [htree3]
    intro e he n hn
    obtain ⟨labs, k, hk, ho, rfl⟩ := hall e he n hn
    rw [hpos] at ho ⊢
    exact hlit.node hd le_rfl labs hk ho
  have hi3 : EncInv noHole s3 := by
    refine ⟨⟨by omega, fun _ h => h.elim, htree3 ▸ hok, hnodes⟩, ?_⟩
    intro e he
    rw [hnames3, hs2] at he
    simp only [hnames, nil_append, mem_singleton] at he
    rw [he, hpos]
    exact ⟨_, hlit.nameEnd hd le_rfl⟩
  refine spec_emit.mono ?_
  rintro _ t h4 rfl
  refine ⟨hi3.emit h4 rfl rfl, _, (hlit.nameEnd hd le_rfl).transfer h4.preserves, ?_, ?_⟩
  · rw [← hpos3]
    exact hi3.toTreeInv.holds_write rfl
  · rw [Sbuffer.position_write, hpos3]
    rfl

end query

def countOffset : Section → Nat
  | .answer => 6
  | .authority => 8
  | .additional => 10

structure Header (data : Nat → UInt8) (flag : UInt8) (qd : Nat) (counts : Section → Nat) :
    Prop where
  flag : data 2 = flag
  qdcount : readU16 data 4 = qd
  counts : ∀ sect, readU16 data (countOffset sect) = counts sect

section header
variable {data : Nat → UInt8} {flag : UInt8} {counts : Section → Nat}

theorem readU16_congr (h0 : data' i = data i) (h1 : data' (i + 1) = data (i + 1)) :
    readU16 data' i = readU16 data i := by
  rw [readU16, readU16, h0, h1]

theorem countOffset_bounds (sect : Section) : 6 ≤ countOffset sect ∧ countOffset sect ≤ 10 := by
  cases sect <;> decide

theorem Header.congr (h : Header data flag qd counts) (hd : ∀ i < 12, data' i = data i) :
    Header data' flag qd counts := by
  refine ⟨(hd 2 (by omega)).trans h.flag, ?_, fun sect => ?_⟩
  · exact (readU16_congr (hd 4 (by omega)) (hd 5 (by omega))).trans h.qdcount
  · have := countOffset_bounds sect
    exact (readU16_congr (hd _ (by omega)) (hd _ (by omega))).trans (h.counts sect)

theorem readU16_blit (hv : v < 65536) : readU16 (blit data pos (u16Bytes v)) pos = v := by
  rw [readU16_of_holds (F := fun _ => True) (holds_blit fun _ _ _ => trivial), Nat.mod_eq_of_lt hv]

theorem readU16_blit_ne (h : i + 2 ≤ pos ∨ pos + bytes.length ≤ i) :
    readU16 (blit data pos bytes) i = readU16 data i := by
  rcases h with h | h
  · exact readU16_congr (blit_of_lt _ (by omega)) (blit_of_lt _ (by omega))
  · exact readU16_congr (blit_of_ge _ h) (blit_of_ge _ (by omega))

variable (h : Header data flag qd counts)
include h

theorem Header.set_qdcount (hv : v < 65536) : Header (blit data 4 (u16Bytes v)) flag v counts := by
  refine ⟨(blit_of_lt _ (by omega)).trans h.flag, readU16_blit hv, fun sect => ?_⟩
  have := countOffset_bounds sect
  exact (readU16_blit_ne (.inr (by rw [length_u16Bytes]; omega))).trans (h.counts sect)

theorem Header.set_count (sect : Section) (hv : v < 65536) :
    Header (blit data (countOffset sect) (u16Bytes v)) flag qd
      (fun sect' => if sect' = sect then v else counts sect') := by
  have hb := countOffset_bounds sect
  refine ⟨(blit_of_lt _ (by omega)).trans h.flag,
    (readU16_blit_ne (.inl (by omega))).trans h.qdcount, fun sect' => ?_⟩
  split
  · rename_i he
    rw [he]
    exact readU16_blit hv
  · rename_i hne
    refine (readU16_blit_ne ?_).trans (h.counts sect')
    rw [length_u16Bytes]
    revert hne
    cases sect <;> cases sect' <;> decide

theorem Header.set_flag (b : UInt8) : Header (blit data 2 [b]) b qd counts := by
  refine ⟨by simp [blit], (readU16_blit_ne (.inr (by simp))).trans h.qdcount, fun sect => ?_⟩
  have := countOffset_bounds sect
  exact (readU16_blit_ne (.inr (by rw [length_singleton]; omega))).trans (h.counts sect)

end header

abbrev Plan := List (Section × List Record)

def Plan.of (p : Plan) (sect : Section) : List Record :=
  (p.filter fun e => e.1 = sect).flatMap (·.2)

def PtrsOk (s : EncState) : Prop := ∀ e ∈ s.ptrs, e.2 ≤ 0x3fff ∧ e.2 < e.1

/-- The question, the records of the units done, and all header counts but that of `cur`. -/
structure PacketSoFar (cur : Section → Prop) (flag : UInt8) (qs : List Question) (done : Plan)
    (s : EncState) : Prop where
  start : 12 ≤ s.pkt.position
  present : PresentNames s
  ptrs : PtrsOk s
  body : ∃ mid, (∀ q ∈ qs, QuestionAt s 12 q mid) ∧ (qs = [] → mid = 12) ∧
    RecordsAt s mid (done.flatMap (·.2)) s.pkt.position
  counted : ∀ sect, s.counts sect = (done.of sect).length.toUInt16
  header : ∃ counts, Header s.pkt.data flag qs.length counts ∧
    ∀ sect, ¬cur sect → counts sect = (done.of sect).length % 65536

def tagged (a : SectionArgs) (units : List RrsetUnit) : Plan :=
  units.map fun u => (a.sect, unitRecords a u)

section stage
variable {flag : UInt8} {qs : List Question} {done : Plan} {s : EncState}

theorem Plan.of_append (p q : Plan) (sect : Section) : (p ++ q).of sect = p.of sect ++ q.of sect := by
  simp [Plan.of]

theorem of_tagged_self : (tagged a units).of a.sect = units.flatMap (unitRecords a) := by
  simp [tagged, Plan.of, filter_map, Function.comp_def, flatMap_map]

theorem of_tagged_ne (h : sect ≠ a.sect) : (tagged a units).of sect = [] := by
  simp [tagged, Plan.of, filter_map, Function.comp_def, h.symm]

theorem flatMap_tagged : (tagged a units).flatMap (·.2) = units.flatMap (unitRecords a) := by
  simp [tagged, flatMap_map]

theorem Advance.ptrsOk (h : Advance s t) (hs : PtrsOk s) : PtrsOk t := by
  obtain ⟨new, hn, hp⟩ := h.ptrs
  rw [PtrsOk, hn]
  exact forall_mem_append.2 ⟨hs, hp⟩

theorem PacketSoFar.run (h : PacketSoFar (· = a.sect) flag qs done s)
    (hr : SectionRun a units s t ok k) :
    PacketSoFar (· = a.sect) flag qs (done ++ tagged a (units.take k)) t where
  start := h.start.trans hr.advance.position
  present := hr.present
  ptrs := hr.advance.ptrsOk h.ptrs
  body := by
    obtain ⟨mid, hq, h0, hrec⟩ := h.body
    refine ⟨mid, fun q hm => (hq q hm).transfer hr.advance.preserves, h0, ?_⟩
    rw [flatMap_append, flatMap_tagged]
    exact (hrec.transfer hr.advance.preserves).append hr.records
  counted sect := by
    rw [hr.counts, bump, Plan.of_append, length_append]
    split
    · rename_i he
      rw [he, h.counted, of_tagged_self]
      simp
    · rename_i hne
      rw [h.counted, of_tagged_ne hne]
      simp
  header := by
    obtain ⟨counts, hh, hc⟩ := h.header
    refine ⟨counts, hh.congr fun i hi => hr.advance.data i (by have := h.start; omega), ?_⟩
    intro sect hne
    rw [hc sect hne, Plan.of_append, of_tagged_ne hne, append_nil]

theorem preserves_patch (hp : pkt.position = s.pkt.position)
    (hd : ∀ i, 12 ≤ i → pkt.data i = s.pkt.data i) :
    Preserves noHole noHole s { s with pkt := pkt } :=
  fun i hi => ⟨⟨hi.1, hp ▸ hi.2.1, id⟩, hd i hi.1⟩

theorem PacketSoFar.patch (h : PacketSoFar cur flag qs done s) (hp : pkt.position = s.pkt.position)
    (hd : ∀ i, 12 ≤ i → pkt.data i = s.pkt.data i)
    (hh : ∃ counts, Header pkt.data flag' qs.length counts ∧
      ∀ sect, ¬cur' sect → counts sect = (done.of sect).length % 65536) :
    PacketSoFar cur' flag' qs done { s with pkt := pkt } where
  start := hp ▸ h.start
  present e he hlt := by
    rw [hp] at hlt
    exact (h.present e he hlt).imp fun _ hn => hn.transfer (preserves_patch hp hd)
  ptrs := h.ptrs
  body := by
    have hpre := preserves_patch hp hd
    obtain ⟨mid, hq, h0, hrec⟩ := h.body
    exact ⟨mid, fun q hm => (hq q hm).transfer hpre, h0, hp ▸ hrec.transfer hpre⟩
  counted := h.counted
  header := hh

theorem writeCount_eq (sect : Section) (s : EncState) : writeCount sect s =
    { s with pkt := s.pkt.writeAt (countOffset sect) (u16Bytes (s.counts sect).toNat) } := by
  cases sect <;> rfl

theorem PacketSoFar.writeCount (h : PacketSoFar (· = sect) flag qs done s) :
    PacketSoFar (fun _ => False) flag qs done (writeCount sect s) := by
  rw [writeCount_eq]
  have hb := countOffset_bounds sect
  refine h.patch rfl (fun i hi => blit_of_ge _ (by rw [length_u16Bytes]; omega)) ?_
  obtain ⟨counts, hh, hc⟩ := h.header
  refine ⟨_, hh.set_count sect (s.counts sect).toNat_lt, fun sect' _ => ?_⟩
  split
  · rename_i he
    rw [he, h.counted]
    simp
  · exact hc sect' ‹_›

theorem PacketSoFar.tcSet (h : PacketSoFar cur flag qs done s) :
    PacketSoFar cur (flag ||| 2) qs done (tcSet s) := by
  obtain ⟨counts, hh, hc⟩ := h.header
  refine h.patch rfl (fun i hi => blit_of_ge _ (by rw [length_singleton]; omega)) ⟨counts, ?_, hc⟩
  rw [hh.flag]
  exact hh.set_flag _

theorem PacketSoFar.mono (h : PacketSoFar cur flag qs done s)
    (hc : ∀ sect, cur sect → cur' sect) : PacketSoFar cur' flag qs done s := by
  obtain ⟨counts, hh, hcs⟩ := h.header
  exact { h with header := ⟨counts, hh, fun sect hne => hcs sect fun h => hne (hc sect h)⟩ }

/-- The question and the first units of the plan, with the TC bit if more than additional ones are
missing. -/
def Finished (flag : UInt8) (qs : List Question) (plan : Plan) (t : EncState) : Prop :=
  ∃ done left u, ∃ tc : Bool, plan = done ++ left ∧ t = flipPkt u ∧
    PacketSoFar (fun _ => False) (if tc then flag ||| 2 else flag) qs done u ∧
    (∀ e, left.head? = some e → e.2 ≠ []) ∧
    (tc = true ↔ ∃ e ∈ left, e.1 ≠ .additional ∧ e.2 ≠ [])

/-- How an encoding ends: with a finished message, or for lack of memory. -/
def Ended (flag : UInt8) (qs : List Question) (plan : Plan) : Bool × EncState → Prop
  | (true, t) => Finished flag qs plan t
  | (false, t) => PresentNames t ∧ PtrsOk t

theorem Ended.whole (h : PacketSoFar (fun _ => False) flag qs done s) :
    Ended flag qs done (true, flipPkt s) :=
  ⟨done, [], s, false, (append_nil done).symm, rfl, h, nofun, by simp⟩

theorem EncInv.patch (hi : EncInv noHole s) (hp : pkt.position = s.pkt.position)
    (hd : ∀ i, 12 ≤ i → pkt.data i = s.pkt.data i) : EncInv noHole { s with pkt := pkt } := by
  have hpre := preserves_patch hp hd
  exact ⟨hi.toTreeInv.transfer hpre (Nat.le_of_eq hp.symm) (fun _ h => h.elim) rfl,
    hi.names.transfer hpre rfl⟩

theorem EncInv.writeCount (hi : EncInv noHole s) (sect : Section) :
    EncInv noHole (writeCount sect s) := by
  rw [writeCount_eq]
  have hb := countOffset_bounds sect
  exact hi.patch rfl fun i h => blit_of_ge _ (by rw [length_u16Bytes]; omega)

theorem Ended.stage {a : SectionArgs} {dnssec : Bool} {rrsets : List PackedRrset} {rest : Plan}
    {finish : EncState → EncState} {next : EncState → Bool × EncState} {r : Bool × EncState}
    (hs : PacketSoFar (· = a.sect) flag qs done s) (hi : EncInv noHole s)
    (h : orFinish (insertSection a.cfg rrsets a.timenow a.sect a.qtype dnssec a.rrOffset) finish
      next s = r) (hlast : a.sect = .additional → rest = [])
    (hfin : ∀ u done', PacketSoFar (· = a.sect) flag qs done' u →
      PacketSoFar (fun _ => False) (if a.sect ≠ .additional then flag ||| 2 else flag) qs done'
        (finish u)) (hnext : ∀ u, PacketSoFar (· = a.sect) flag qs
        (done ++ tagged a (sectionUnits a.sect a.qtype dnssec rrsets)) u → EncInv noHole u →
      next u = r →
      Ended flag qs (done ++ tagged a (sectionUnits a.sect a.qtype dnssec rrsets) ++ rest) r) :
    Ended flag qs (done ++ tagged a (sectionUnits a.sect a.qtype dnssec rrsets) ++ rest) r := by
  rw [insertSection_eq] at h
  obtain ⟨k, hk⟩ := eachUnit_run (a := a) (sectionUnits a.sect a.qtype dnssec rrsets) hi
  have hrun := hs.run hk
  generalize sectionUnits a.sect a.qtype dnssec rrsets = units at *
  rcases orFinish_cases h with ⟨v, u, hx, hn⟩ | ⟨u, hx, rfl⟩ | ⟨u, hx, rfl⟩
  · obtain ⟨hlen, hinv⟩ := hk.whole ⟨v, by rw [hx]⟩
    rw [hlen, take_length, hx] at hrun
    rw [hx] at hinv
    exact hnext u hrun hinv hn
  · obtain ⟨w, after, hw, hne⟩ := hk.stopped (by rw [hx]; rintro ⟨_, ⟨⟩⟩)
    rw [hx] at hrun
    have hsplit : tagged a units = tagged a (units.take k) ++ tagged a (w :: after) := by
      unfold tagged
      rw [← hw, ← map_append, take_append_drop]
    refine ⟨done ++ tagged a (units.take k), tagged a (w :: after) ++ rest, _, decide (a.sect ≠ .additional), ?_, rfl,
      ?_, ?_, ?_⟩
    · rw [hsplit, append_assoc, append_assoc, append_assoc]
    · simpa using hfin u _ hrun
    · rintro e ⟨⟩
      exact hne
    · rw [decide_eq_true_iff]
      constructor
      · exact fun hsect => ⟨_, mem_append_left _ mem_cons_self, hsect, hne⟩
      · rintro ⟨e, he, hsect, -⟩ ha
        rw [hlast ha, append_nil] at he
        obtain ⟨v, -, rfl⟩ := mem_map.1 he
        exact hsect ha
  · rw [hx] at hrun
    exact ⟨hrun.present, hrun.ptrs⟩

end stage

def sectionArgs (cfg : EncodeConfig) (qinfo : QueryInfo) (id : UInt16) (timenow time : Int)
    (sect : Section) : SectionArgs :=
  ⟨cfg, time, sect, qinfo.qtype, rrOffsetOf cfg id timenow⟩

def sectionPlan (a : SectionArgs) (dnssec : Bool) (rrsets : List PackedRrset) : Plan :=
  tagged a (sectionUnits a.sect a.qtype dnssec rrsets)

/-- All that `reply_info_encode` tries to write behind the question, in its order. -/
def replyPlan (cfg : EncodeConfig) (qinfo : QueryInfo) (rep : ReplyInfo) (id flags : UInt16)
    (timenow : Int) (dnssec minimise : Bool) : Plan :=
  let args := sectionArgs cfg qinfo id timenow
  sectionPlan (args 0 .answer) dnssec (aliasRrsets qinfo flags) ++
    (sectionPlan (args timenow .answer) dnssec rep.an ++
      if minimise && positiveAnswer rep qinfo.qtype then []
      else sectionPlan (args timenow .authority) dnssec rep.ns ++
        if minimise && negativeAnswer rep then []
        else sectionPlan (args timenow .additional) dnssec rep.ar)

def replyQuestions (qinfo : QueryInfo) (rep : ReplyInfo) : List Question :=
  if rep.qdcount ≠ 0 then [replyQuestion qinfo] else []

section reply
variable {cfg : EncodeConfig} {qinfo : QueryInfo} {rep : ReplyInfo} {id flags udpsize : UInt16}
  {buffer : Sbuffer} {timenow : Int} {region : Nat → Bool} {dnssec minimise : Bool}

theorem replySections_run (hs : PacketSoFar (fun _ => False) flag qs [] s) (hi : EncInv noHole s)
    (h : replySections cfg qinfo rep id flags timenow dnssec minimise s = r) :
    Ended flag qs (replyPlan cfg qinfo rep id flags timenow dnssec minimise) r := by
  unfold replyPlan
  extract_lets args
  refine Ended.stage (a := args 0 .answer) (hs.mono nofun) hi h nofun
    (fun _ _ h => h.writeCount.tcSet) ?_
  intro s1 hs1 hi1 h1
  rw [← append_assoc]
  refine Ended.stage (a := args timenow .answer) hs1 hi1 h1 nofun
    (fun _ _ h => h.writeCount.tcSet) ?_
  intro s2 hs2 hi2 h2
  split at h2
  · rename_i hm
    cases h2
    rw [if_pos hm, append_nil]
    exact Ended.whole hs2.writeCount
  rename_i hm
  rw [if_neg hm, ← append_assoc]
  refine Ended.stage (a := args timenow .authority) (hs2.writeCount.mono nofun)
    (hi2.writeCount _) h2 nofun (fun _ _ h => h.writeCount.tcSet) ?_
  intro s3 hs3 hi3 h3
  split at h3
  · rename_i hm
    cases h3
    rw [if_pos hm, append_nil]
    exact Ended.whole hs3.writeCount
  rename_i hm
  rw [if_neg hm, ← append_nil (sectionPlan _ _ rep.ar), ← append_assoc]
  refine Ended.stage (a := args timenow .additional) (hs3.writeCount.mono nofun)
    (hi3.writeCount _) h3 (fun _ => rfl) (fun _ _ h => h.writeCount) ?_
  intro s4 hs4 _ h4
  cases h4
  rw [append_nil]
  exact Ended.whole hs4.writeCount

theorem startPkt_write :
    ((startPkt buffer udpsize).write bytes).data = blit buffer.data 0 bytes := by
  unfold startPkt
  split <;> rfl

structure HeaderDone (flag : UInt8) (qd : Nat) (data : Nat → UInt8) (s : EncState) : Prop where
  position : s.pkt.position = 12
  header : Header s.pkt.data flag qd fun _ => 0
  rest : ∀ i, 12 ≤ i → s.pkt.data i = data i
  tree : s.tree = .null
  counts : s.counts = fun _ => 0
  names : s.names = []
  ptrs : s.ptrs = []

theorem headerDone_start (buffer : Sbuffer) (udpsize id flags : UInt16) (qdcount : UInt8)
    (region : Nat → Bool) : HeaderDone (flags.toNat / 256).toUInt8 qdcount.toNat buffer.data
      ⟨(startPkt buffer udpsize).write (replyHeader id flags qdcount), .null, region, 0, 0, 0,
        [], []⟩ where
  position := by
    rw [Sbuffer.position_write, startPkt_position]
    rfl
  header := by
    rw [startPkt_write]
    have h : Holds (fun _ => True) (blit buffer.data 0 (replyHeader id flags qdcount)) 0
        (replyHeader id flags qdcount) := holds_blit fun _ _ _ => trivial
    simp only [replyHeader, holds_append] at h
    obtain ⟨⟨⟨-, hf⟩, hq⟩, hc⟩ := h
    refine ⟨hf.2.1, ?_, fun sect => ?_⟩
    · exact (readU16_of_holds hq).trans (Nat.mod_eq_of_lt (by have := qdcount.toNat_lt; omega))
    · obtain ⟨-, h6, -, h7, -, h8, -, h9, -, h10, -, h11, -⟩ := hc
      cases sect
      · exact congrArg₂ (fun a b : UInt8 => a.toNat * 256 + b.toNat) h6 h7
      · exact congrArg₂ (fun a b : UInt8 => a.toNat * 256 + b.toNat) h8 h9
      · exact congrArg₂ (fun a b : UInt8 => a.toNat * 256 + b.toNat) h10 h11
  rest i hi := by
    rw [startPkt_write]
    exact blit_of_ge _ (by rw [Nat.zero_add]; exact hi)
  tree := rfl
  counts := by
    funext sect
    cases sect <;> rfl
  names := rfl
  ptrs := rfl

theorem HeaderDone.encInv (h : HeaderDone flag qd data s) : EncInv noHole s := by
  refine ⟨⟨Nat.le_of_eq h.position.symm, fun _ h => h.elim, h.tree ▸ TreeOk.null,
    h.tree ▸ nofun⟩, ?_⟩
  intro e he
  rw [h.names] at he
  cases he

theorem HeaderDone.ptrsOk (h : HeaderDone flag qd data s) : PtrsOk s := by
  intro e he
  rw [h.ptrs] at he
  cases he

theorem HeaderDone.qnameInPlace (h : HeaderDone flag qd data s) (hq : QnameInPlace qinfo data) :
    QnameInPlace qinfo s.pkt.data := fun hp =>
  ((hq hp).restrict (G := fun i => 12 ≤ i) fun _ hi _ => hi).mono fun i hi =>
    ⟨trivial, h.rest i hi⟩

theorem HeaderDone.packet (h : HeaderDone flag 0 data s) :
    PacketSoFar (fun _ => False) flag [] [] s where
  start := Nat.le_of_eq h.position.symm
  present := h.encInv.present
  ptrs := h.ptrsOk
  body := ⟨12, nofun, fun _ => rfl, h.position ▸ .nil⟩
  counted sect := congrFun h.counts sect
  header := ⟨_, h.header, fun _ _ => rfl⟩

theorem HeaderDone.noRoom (h : HeaderDone flag qd data s) :
    PacketSoFar (fun _ => False) (flag ||| 2) [] []
      (tcSet { s with pkt := s.pkt.writeAt 4 (u16Bytes 0) }) := by
  have h0 : HeaderDone flag 0 data { s with pkt := s.pkt.writeAt 4 (u16Bytes 0) } :=
    ⟨h.position, h.header.set_qdcount (by decide), fun i hi =>
      (blit_of_ge _ (by rw [length_u16Bytes]; omega)).trans (h.rest i hi), h.tree, h.counts, h.names,
      h.ptrs⟩
  exact h0.packet.tcSet

theorem HeaderDone.question (h : HeaderDone flag 1 data s) (hq : QnameInPlace qinfo data)
    (hr : insertQuery qinfo s = (.ok v, t)) :
    EncInv noHole t ∧ PacketSoFar (fun _ => False) flag [replyQuestion qinfo] [] t := by
  obtain ⟨hkeep, hpost⟩ := insertQuery_spec h.position h.tree h.names (h.qnameInPlace hq)
  obtain ⟨hinv, hat⟩ := hpost v t hr
  have hg : Grow s t := hkeep.of_run hr
  refine ⟨hinv, ⟨hinv.start, hinv.present, ?_, ?_, ?_, ?_⟩⟩
  · exact hg.ptrsOk h.ptrsOk
  · refine ⟨t.pkt.position, ?_, nofun, .nil⟩
    rintro q hq
    rw [mem_singleton.1 hq]
    exact hat
  · intro sect
    rw [hg.counts, h.counts]
    rfl
  · exact ⟨_, h.header.congr fun i hi => hg.data i (by rw [h.position]; exact hi), fun _ _ => rfl⟩

theorem HeaderDone.outmem (h : HeaderDone flag 1 data s) (hq : QnameInPlace qinfo data)
    (hr : insertQuery qinfo s = (.error e, t)) : PresentNames t ∧ PtrsOk t := by
  have hg : Grow s t := (insertQuery_spec h.position h.tree h.names (h.qnameInPlace hq)).1.of_run hr
  constructor
  · intro e he hlt
    obtain ⟨new, hn, hp⟩ := hg.names
    rw [hn, h.names, nil_append] at he
    have := hp e he
    rw [(insertQuery_error hr).1] at hlt
    omega
  · exact hg.ptrsOk h.ptrsOk

/-- A message that `reply_info_encode` returns holds the first units of its plan, or is empty. -/
theorem replyInfoEncode_run (hq : QnameInPlace qinfo buffer.data)
    (h : replyInfoEncode cfg qinfo rep id flags buffer timenow region udpsize dnssec minimise = r) :
    (rep.qdcount ≠ 0 ∧ ∃ u, r = (true, flipPkt u) ∧
      PacketSoFar (fun _ => False) ((flags.toNat / 256).toUInt8 ||| 2) [] [] u) ∨
    Ended (flags.toNat / 256).toUInt8 (replyQuestions qinfo rep)
      (replyPlan cfg qinfo rep id flags timenow dnssec minimise) r := by
  have hstart := headerDone_start buffer udpsize id flags rep.qdcount region
  unfold replyInfoEncode at h
  dsimp only at h
  split at h
  · cases h
    exact .inr ⟨nofun, nofun⟩
  unfold replyQuestions
  rcases rep.qdcount_ok with hqd | hqd
  · rw [hqd] at hstart h ⊢
    rw [if_neg (by decide), orFinish_pure] at h
    exact .inr (replySections_run hstart.packet hstart.encInv h)
  · rw [hqd] at hstart h ⊢
    rcases orFinish_cases h with ⟨v, u, hx, hn⟩ | ⟨u, hx, rfl⟩ | ⟨u, hx, rfl⟩
    · obtain ⟨hi, hs⟩ := hstart.question hq hx
      exact .inr (replySections_run hs hi hn)
    · cases ((insertQuery_error hx).2.1 rfl).1
      exact .inl ⟨by decide, _, rfl, hstart.noRoom⟩
    · exact .inr (hstart.outmem hq hx)

theorem replyInfoEncode_length
    (h : replyInfoEncode cfg qinfo rep id flags buffer timenow region udpsize dnssec minimise =
      (true, t)) : t.pkt.limit < 65536 := by
  obtain ⟨b, v, rfl, hw, hlim, -, -, -, hpos⟩ := replyInfoEncode_within h
  have hlen := (questionName_ok qinfo).len_le
  have hudp := udpsize.toNat_lt
  have := hw.position
  change v.pkt.position < 65536
  omega

/-- The finished packet, or what was written before memory ran out. -/
def builtPkt : Bool × EncState → Sbuffer
  | (true, t) => t.pkt
  | (false, t) => t.pkt.flip

def Decodes (pkt : Sbuffer) (pos : Nat) (d : Name) : Prop :=
  (pktDnameLen (pkt.setPosition pos)).1 = wireLen d ∧
    ∃ m, dnamePktCopy pkt pos = wire m ∧ lowerName m = lowerName d

theorem NameEnd.decodes {next : Nat} (h : NameEnd noHole s pos d next) : Decodes s.pkt.flip pos d := by
  obtain ⟨hd, m, hops, hm, hh, hn⟩ := h
  have hlen : wireLen m = wireLen d := by rw [← wireLen_lowerName, hm, wireLen_lowerName]
  have hlab : m.length = d.length := by
    have := congrArg length hm
    rwa [lowerName, length_map, lowerName, length_map] at this
  have h1 := hd.len_le
  have h2 := hd.length_le
  have hF : ∀ i, frozen noHole s i → i < s.pkt.flip.limit := fun i hi => hi.2.1
  refine ⟨?_, m, ?_, hm⟩
  · rw [pktDnameLen_of_nameAt (s.pkt.flip.setPosition pos) hF hn (by omega) (by omega)
      (by omega), hlen]
  · exact dnamePktCopy_of_nameAt hF hn (by omega) (by omega) (by omega)

/-- Every name in a packet reads back as the name given, and every pointer leads backwards. -/
theorem replyInfoEncode_names (hq : QnameInPlace qinfo buffer.data) {r : Bool × EncState}
    (h : replyInfoEncode cfg qinfo rep id flags buffer timenow region udpsize dnssec minimise = r) :
    (∀ e ∈ r.2.names, e.1 < (builtPkt r).limit → Decodes (builtPkt r) e.1 e.2) ∧
      ∀ e ∈ r.2.ptrs, e.2 ≤ 0x3fff ∧ e.2 < e.1 := by
  have hend : ∃ u, builtPkt r = u.pkt.flip ∧ r.2.names = u.names ∧ r.2.ptrs = u.ptrs ∧
      PresentNames u ∧ PtrsOk u := by
    rcases replyInfoEncode_run hq h with ⟨-, u, rfl, hu⟩ | hend
    · exact ⟨u, rfl, rfl, rfl, hu.present, hu.ptrs⟩
    · rcases r with ⟨_ | _, t⟩
      · exact ⟨t, rfl, rfl, rfl, hend⟩
      · obtain ⟨_, _, u, _, _, rfl, hu, -⟩ := hend
        exact ⟨u, rfl, rfl, rfl, hu.present, hu.ptrs⟩
  obtain ⟨u, hpkt, hnames, hptrs, hpres, hok⟩ := hend
  rw [hpkt, hnames, hptrs]
  refine ⟨fun e he hlt => ?_, hok⟩
  obtain ⟨next, hn⟩ := hpres e he hlt
  exact hn.decodes

end reply

def sampleRrset : PackedRrset where
  dname := [[119], [97, 98]]
  flags := 0
  type := 5
  rrsetClass := 1
  ttlAdd := 0
  rrs := [⟨300, [0, 6, 1, 120, 2, 65, 98, 0]⟩]
  rrsigs := []
  dname_ok := by decide
  rrs_ok := by decide
  rrsigs_ok := nofun

def sampleQuery : QueryInfo := ⟨[[119], [97, 98]], 5, 1, none, false, by decide⟩

def sampleReply : ReplyInfo := ⟨0x8180, true, 1, [sampleRrset], [], [], .inr rfl⟩

def sampleConfig : EncodeConfig := ⟨false, 30, false, false, false, 0⟩

def sampleBuffer (capacity : Nat) : Sbuffer := ⟨fun _ => 0, 0, 0, capacity, 0⟩

theorem replyInfoEncode_names_sample :
    let r := replyInfoEncode sampleConfig sampleQuery sampleReply 7 0x8180 (sampleBuffer 512) 0
      (fun _ => true) 512 false false
    r.2.names = [(12, [[119], [97, 98]]), (22, [[119], [97, 98]]), (34, [[120], [65, 98]])] ∧
      r.2.ptrs = [(22, 12), (34, 14)] ∧
      (∀ e ∈ r.2.names, e.1 < (builtPkt r).limit → Decodes (builtPkt r) e.1 e.2) ∧
      ∀ e ∈ r.2.ptrs, e.2 ≤ 0x3fff ∧ e.2 < e.1 :=
  ⟨by decide +kernel, by decide +kernel,
    replyInfoEncode_names (fun h => absurd h Bool.false_ne_true) rfl⟩

/-- Read a name in lower case; the readers are those of the parser. -/
def scanName (pkt : Sbuffer) (pos : Nat) : Option (Name × Nat) :=
  let r := pktDnameLen (pkt.setPosition pos)
  if r.1 = 0 then none else some (lowerName (nameAt (dnamePktCopy pkt pos)), r.2.position)

/-- Read the pieces of an rdata from `pos` to `stop`. -/
def scanFields (pkt : Sbuffer) (stop : Nat) : List RdfType → Nat → Nat → Option (List RdField)
  | [], _, pos => some [.raw (bytesAt pkt.data pos (stop - pos))]
  | rdf :: wireformat, count, pos =>
    if pos = stop ∨ count = 0 then some [.raw (bytesAt pkt.data pos (stop - pos))]
    else if rdf = .dname then
      match scanName pkt pos with
      | none => none
      | some (n, next) =>
        if stop < next then none
        else (scanFields pkt stop wireformat (count - 1) next).map (.dname n :: ·)
    else
      let len := rdfLen rdf (pkt.data pos)
      if stop < pos + len then none
      else (scanFields pkt stop wireformat count (pos + len)).map
        (.raw (bytesAt pkt.data pos len) :: ·)

/-- Read a record; rdata of types whose names are not compressed is taken as it is. -/
def scanRecord (pkt : Sbuffer) (pos : Nat) : Option (Record × Nat) :=
  match scanName pkt pos with
  | none => none
  | some (owner, next) =>
    let type := (readU16 pkt.data next).toUInt16
    let stop := next + 10 + readU16 pkt.data (next + 8)
    let desc := sldnsRrDescript type
    if pkt.limit < next + 10 ∨ pkt.limit < stop then none
    else
      (if desc.compress then scanFields pkt stop desc.wireformat desc.dnameCount (next + 10)
        else some [.raw (bytesAt pkt.data (next + 10) (stop - (next + 10)))]).map fun rdata =>
        (⟨owner, type, (readU16 pkt.data (next + 2)).toUInt16, readU32 pkt.data (next + 4), rdata⟩,
          stop)

def scanRecords (pkt : Sbuffer) : Nat → Nat → Option (List Record × Nat)
  | 0, pos => some ([], pos)
  | n + 1, pos =>
    match scanRecord pkt pos with
    | none => none
    | some (r, next) => (scanRecords pkt n next).map fun p => (r :: p.1, p.2)

def scanQuestion (pkt : Sbuffer) (pos : Nat) : Option (Question × Nat) :=
  match scanName pkt pos with
  | none => none
  | some (qname, next) =>
    if pkt.limit < next + 4 then none
    else some (⟨qname, (readU16 pkt.data next).toUInt16, (readU16 pkt.data (next + 2)).toUInt16⟩,
      next + 4)

def scanQuestions (pkt : Sbuffer) : Nat → Nat → Option (List Question × Nat)
  | 0, pos => some ([], pos)
  | n + 1, pos =>
    match scanQuestion pkt pos with
    | none => none
    | some (q, next) => (scanQuestions pkt n next).map fun p => (q :: p.1, p.2)

structure Message where
  questions : List Question
  records : Section → List Record

/-- Read a message as its header announces it; nothing may be left over. -/
def scanPacket (pkt : Sbuffer) : Option Message := do
  if pkt.limit < 12 then none
  let (questions, pos) ← scanQuestions pkt (readU16 pkt.data 4) 12
  let (answer, pos) ← scanRecords pkt (readU16 pkt.data 6) pos
  let (authority, pos) ← scanRecords pkt (readU16 pkt.data 8) pos
  let (additional, pos) ← scanRecords pkt (readU16 pkt.data 10) pos
  if pos ≠ pkt.limit then none
  return ⟨questions, fun
    | .answer => answer
    | .authority => authority
    | .additional => additional⟩

def Record.lower (r : Record) : Record :=
  { r with owner := lowerName r.owner, rdata := r.rdata.map RdField.lower }

def Question.lower (q : Question) : Question := { q with qname := lowerName q.qname }

section scan
variable {s : EncState} {pos next stop count : Nat}

theorem scanName_of_nameEnd (h : NameEnd noHole s pos d next) :
    scanName s.pkt.flip pos = some (lowerName d, next) := by
  obtain ⟨hd, m, hops, hm, hh, hn⟩ := h
  have hv := ValidName.of_lower hm hd
  have h1 := hv.len_le
  have h2 := hv.length_le
  have hF : ∀ i, frozen noHole s i → i < s.pkt.flip.limit := fun i hi => hi.2.1
  unfold scanName
  rw [pktDnameLen_of_nameAt (s.pkt.flip.setPosition pos) hF hn h1 h2 (by omega),
    dnamePktCopy_of_nameAt hF hn h1 h2 (by omega)]
  have hpos := wireLen_pos m
  rw [if_neg (by simp only; omega), ← append_nil (wire m), nameAt_wire hv, hm]

theorem NameEnd.lt_next (h : NameEnd noHole s pos d next) : pos < next := by
  obtain ⟨-, _, _, -, -, hn⟩ := h
  exact hn.lt_next

theorem FieldsAt.le (h : FieldsAt noHole s pos fields stop) : pos ≤ stop := by
  induction h with
  | nil => exact le_rfl
  | raw _ _ ih => omega
  | dname hn _ ih => exact (le_of_lt hn.lt_next).trans ih

theorem FieldsAt.raw_inv (h : FieldsAt noHole s pos (.raw bytes :: fields) stop) :
    Holds (frozen noHole s) s.pkt.data pos bytes ∧
      FieldsAt noHole s (pos + bytes.length) fields stop := by
  cases h with
  | raw hb hf => exact ⟨hb, hf⟩

theorem FieldsAt.dname_inv (h : FieldsAt noHole s pos (.dname n :: fields) stop) :
    ∃ next, NameEnd noHole s pos n next ∧ FieldsAt noHole s next fields stop := by
  cases h with
  | dname hn hf => exact ⟨_, hn, hf⟩

theorem FieldsAt.nil_inv (h : FieldsAt noHole s pos [] stop) : pos = stop := by
  cases h with
  | nil => rfl

theorem FieldsAt.last (h : FieldsAt noHole s pos [.raw bytes] stop) :
    bytesAt s.pkt.data pos (stop - pos) = bytes ∧ stop = pos + bytes.length := by
  obtain ⟨hb, hf⟩ := h.raw_inv
  have hstop := hf.nil_inv
  refine ⟨?_, hstop.symm⟩
  rw [← hstop, Nat.add_sub_cancel_left]
  exact bytesAt_of_holds hb

theorem FieldsAt.lt_of_ne_nil (hr : rdataFields wf count rdata = some fields)
    (h : FieldsAt noHole s pos fields stop) (hne : rdata ≠ []) : pos < stop := by
  have hlen := length_pos_iff.2 hne
  induction wf generalizing count rdata fields pos with
  | nil =>
    cases hr
    have := h.last.2
    omega
  | cons rdf wf ih =>
    unfold rdataFields at hr
    split at hr
    · cases hr
      have := h.last.2
      omega
    · split at hr
      · split at hr
        · cases hr
        · obtain ⟨fields', -, rfl⟩ := Option.map_eq_some_iff.1 hr
          obtain ⟨next, hn, hf⟩ := h.dname_inv
          exact lt_of_lt_of_le hn.lt_next hf.le
      · dsimp only at hr
        split at hr
        · cases hr
        · obtain ⟨fields', hr', rfl⟩ := Option.map_eq_some_iff.1 hr
          obtain ⟨-, hf⟩ := h.raw_inv
          rw [length_take_of_le (by omega)] at hf
          by_cases h0 : rdfLen rdf (peek rdata) = 0
          · rw [h0] at hr' hf
            exact ih hr' hf hne hlen
          · have := hf.le
            omega

theorem rdfLen_of_holds (hle : rdfLen rdf (peek rdata) ≤ rdata.length)
    (h : Holds (frozen noHole s) s.pkt.data pos (rdata.take (rdfLen rdf (peek rdata)))) :
    rdfLen rdf (s.pkt.data pos) = rdfLen rdf (peek rdata) := by
  by_cases hstr : rdf = .str
  · subst hstr
    cases rdata with
    | nil => simp [rdfLen] at hle
    | cons x rdata =>
      rw [h.2.1]
      rfl
  · rw [rdfLen, rdfLen, if_neg hstr, if_neg hstr]

theorem scanFields_of_fieldsAt
    (hr : rdataFields wf count rdata = some fields) (h : FieldsAt noHole s pos fields stop) :
    scanFields s.pkt.flip stop wf count pos = some (fields.map RdField.lower) := by
  induction wf generalizing count rdata fields pos with
  | nil =>
    cases hr
    exact congrArg (fun bytes => some [RdField.raw bytes]) h.last.1
  | cons rdf wf ih =>
    unfold scanFields
    by_cases hend : rdata = [] ∨ count = 0
    · rw [rdataFields, if_pos hend] at hr
      cases hr
      obtain ⟨hlast, hstop⟩ := h.last
      rw [if_pos (hend.imp_left fun h => by rw [hstop, h]; rfl)]
      exact congrArg (fun bytes => some [RdField.raw bytes]) hlast
    have hlt := h.lt_of_ne_nil hr (mt Or.inl hend)
    unfold rdataFields at hr
    rw [if_neg hend] at hr
    rw [if_neg (not_or.2 ⟨hlt.ne, mt Or.inr hend⟩)]
    by_cases hrdf : rdf = .dname
    · rw [if_pos hrdf] at hr ⊢
      split at hr
      · cases hr
      · obtain ⟨fields', hr', rfl⟩ := Option.map_eq_some_iff.1 hr
        obtain ⟨next, hn, hf⟩ := h.dname_inv
        rw [scanName_of_nameEnd hn]
        dsimp only
        rw [if_neg (Nat.not_lt.2 hf.le), ih hr' hf]
        rfl
    · rw [if_neg hrdf] at hr ⊢
      dsimp only at hr ⊢
      split at hr
      · cases hr
      · rename_i hlt
        obtain ⟨fields', hr', rfl⟩ := Option.map_eq_some_iff.1 hr
        obtain ⟨hb, hf⟩ := h.raw_inv
        have hlen := length_take_of_le (Nat.not_lt.1 hlt)
        have hl : rdfLen rdf (s.pkt.flip.data pos) = rdfLen rdf (peek rdata) :=
          rdfLen_of_holds (Nat.not_lt.1 hlt) hb
        have hbytes : bytesAt s.pkt.flip.data pos (rdfLen rdf (peek rdata)) =
            rdata.take (rdfLen rdf (peek rdata)) := by
          conv => lhs; rw [← hlen]
          exact bytesAt_of_holds hb
        rw [hlen] at hf
        rw [hl, if_neg (Nat.not_lt.2 hf.le), ih hr' hf, hbytes]
        rfl

def Record.Formed (r : Record) : Prop :=
  r.ttl < 2 ^ 32 ∧ ∃ bytes, if (sldnsRrDescript r.type).compress then
    rdataFields (sldnsRrDescript r.type).wireformat (sldnsRrDescript r.type).dnameCount bytes =
      some r.rdata else r.rdata = [.raw bytes]

theorem toUInt16_toNat (x : UInt16) : x.toNat.toUInt16 = x := UInt16.ofNat_toNat

theorem replyTtl_lt : replyTtl cfg adjust ttl < 2 ^ 32 := by
  unfold replyTtl
  extract_lets t
  omega

theorem unitRecords_formed : ∀ r ∈ unitRecords a u, r.Formed := by
  intro r hr
  by_cases hb : rrsetBelongsInReply a.sect u.key.type a.qtype u.dnssec = true
  · rw [unitRecords_eq hb] at hr
    rcases mem_append.1 hr with hr | hr
    · obtain ⟨rr, hrr, rfl⟩ := mem_map.1 hr
      refine ⟨replyTtl_lt, rr.data.drop 2, ?_⟩
      have hok := u.rrs_ok a rr hrr
      simp only [dataRecord, typeRdataCompressable]
      split
      · rename_i hc
        obtain ⟨fields, hf⟩ := Option.isSome_iff_exists.1 (hok.fields hc)
        simp only [writtenFields, hf, Option.getD_some]
      · rfl
    · obtain ⟨rr, -, rfl⟩ := mem_map.1 hr
      exact ⟨replyTtl_lt, rr.data.drop 2, rfl⟩
  · unfold unitRecords at hr
    rw [if_pos (by simpa using hb)] at hr
    cases hr

theorem scanRdata_of_fieldsAt {r : Record} (hr : r.Formed)
    (hf : FieldsAt noHole s pos r.rdata stop) :
    (if (sldnsRrDescript r.type).compress then
      scanFields s.pkt.flip stop (sldnsRrDescript r.type).wireformat
        (sldnsRrDescript r.type).dnameCount pos
      else some [.raw (bytesAt s.pkt.flip.data pos (stop - pos))]) =
      some (r.rdata.map RdField.lower) := by
  obtain ⟨-, bytes, hb⟩ := hr
  by_cases hc : (sldnsRrDescript r.type).compress = true
  · rw [if_pos hc] at hb ⊢
    exact scanFields_of_fieldsAt hb hf
  · rw [if_neg hc] at hb ⊢
    rw [hb] at hf ⊢
    exact congrArg (fun bytes => some [RdField.raw bytes]) hf.last.1

theorem scanRecord_of_recordAt {r : Record} (hr : r.Formed) (h : RecordAt s pos r stop)
    (hstop : stop ≤ s.pkt.position) (hmax : stop < 65536) :
    scanRecord s.pkt.flip pos = some (r.lower, stop) := by
  obtain ⟨next, hn, hh, hle, hf⟩ := h
  simp only [rrHead, holds_append, length_append, length_u16Bytes, length_u32Bytes] at hh
  obtain ⟨⟨⟨htype, hclass⟩, httl⟩, hlen⟩ := hh
  have htype : readU16 s.pkt.flip.data next = r.type.toNat :=
    (readU16_of_holds htype).trans (Nat.mod_eq_of_lt r.type.toNat_lt)
  have hclass : readU16 s.pkt.flip.data (next + 2) = r.rclass.toNat :=
    (readU16_of_holds hclass).trans (Nat.mod_eq_of_lt r.rclass.toNat_lt)
  have httl : readU32 s.pkt.flip.data (next + 4) = r.ttl :=
    (readU32_of_holds httl).trans (Nat.mod_eq_of_lt hr.1)
  have hlen : next + 10 + readU16 s.pkt.flip.data (next + 8) = stop := by
    rw [show readU16 s.pkt.flip.data (next + 8) = stop - next - 10 from
      (readU16_of_holds hlen).trans (Nat.mod_eq_of_lt (by omega))]
    omega
  have hlim : s.pkt.flip.limit = s.pkt.position := rfl
  unfold scanRecord
  rw [scanName_of_nameEnd hn]
  simp only [htype, hclass, httl, hlen, toUInt16_toNat]
  rw [if_neg (by rw [hlim]; omega), scanRdata_of_fieldsAt hr hf]
  rfl

theorem RecordsAt.le (h : RecordsAt s pos rs stop) : pos + 11 * rs.length ≤ stop := by
  induction h with
  | nil => exact le_rfl
  | cons hr _ ih =>
    obtain ⟨next, hn, -, hle, -⟩ := hr
    have := hn.lt_next
    rw [length_cons]
    omega

theorem RecordsAt.split (h : RecordsAt s pos (rs ++ rs') stop) :
    ∃ mid, RecordsAt s pos rs mid ∧ RecordsAt s mid rs' stop := by
  induction rs generalizing pos with
  | nil => exact ⟨pos, .nil, h⟩
  | cons r rs ih =>
    cases h with
    | cons hr hrs =>
      obtain ⟨mid, h1, h2⟩ := ih hrs
      exact ⟨mid, .cons hr h1, h2⟩

theorem scanRecords_of_recordsAt (hrs : ∀ r ∈ rs, r.Formed) (h : RecordsAt s pos rs stop)
    (hstop : stop ≤ s.pkt.position) (hmax : stop < 65536) :
    scanRecords s.pkt.flip rs.length pos = some (rs.map Record.lower, stop) := by
  induction h with
  | nil => rfl
  | cons hr htail ih =>
    have hle := htail.le
    rw [length_cons, scanRecords, scanRecord_of_recordAt (hrs _ mem_cons_self) hr
      (by omega) (by omega)]
    dsimp only
    rw [ih (fun r h => hrs r (mem_cons_of_mem _ h)) hstop hmax]
    rfl

theorem scanQuestion_of_questionAt (h : QuestionAt s pos q stop) :
    scanQuestion s.pkt.flip pos = some (q.lower, stop) := by
  obtain ⟨next, hn, hh, rfl⟩ := h
  have hend : next + 4 ≤ s.pkt.flip.limit :=
    hh.end_le (fun i (hi : frozen noHole s i) => hi.2.1) (Nat.zero_lt_succ _)
  obtain ⟨htype, hclass⟩ := holds_append.1 hh
  have htype : readU16 s.pkt.flip.data next = q.qtype.toNat :=
    (readU16_of_holds htype).trans (Nat.mod_eq_of_lt q.qtype.toNat_lt)
  have hclass : readU16 s.pkt.flip.data (next + 2) = q.qclass.toNat :=
    (readU16_of_holds hclass).trans (Nat.mod_eq_of_lt q.qclass.toNat_lt)
  unfold scanQuestion
  rw [scanName_of_nameEnd hn]
  simp only [htype, hclass, toUInt16_toNat]
  rw [if_neg (Nat.not_lt.2 hend)]
  rfl

def Section.rank : Section → Nat
  | .answer => 0
  | .authority => 1
  | .additional => 2

def Plan.Ordered (p : Plan) : Prop := p.Pairwise fun e e' => e.1.rank ≤ e'.1.rank

theorem Plan.of_eq_nil {p : Plan} (h : ∀ e ∈ p, e.1 ≠ sect) : p.of sect = [] := by
  unfold Plan.of
  rw [filter_eq_nil_iff.2 fun e he => by simpa using h e he]
  rfl

theorem Plan.of_cons (e : Section × List Record) (p : Plan) (sect : Section) :
    (Plan.of (e :: p) sect) = (if e.1 = sect then e.2 else []) ++ p.of sect := by
  unfold Plan.of
  rw [filter_cons]
  split <;> rename_i h
  · rw [if_pos (of_decide_eq_true h), flatMap_cons]
  · rw [if_neg (by simpa using h), nil_append]

theorem Plan.Ordered.flatMap_eq {p : Plan} (h : p.Ordered) :
    p.flatMap (·.2) = p.of .answer ++ (p.of .authority ++ p.of .additional) := by
  induction p with
  | nil => rfl
  | cons e p ih =>
    obtain ⟨he, hp⟩ := pairwise_cons.1 h
    rw [flatMap_cons, ih hp, Plan.of_cons, Plan.of_cons, Plan.of_cons]
    have hnone : ∀ sect : Section, sect.rank < e.1.rank → Plan.of p sect = [] := by
      intro sect hlt
      refine Plan.of_eq_nil fun e' he' heq => ?_
      have := he e' he'
      rw [heq] at this
      omega
    rcases hsect : e.1
    · simp
    · simp [hnone .answer (by rw [hsect]; decide)]
    · simp [hnone .answer (by rw [hsect]; decide), hnone .authority (by rw [hsect]; decide)]

theorem ordered_tagged : (tagged a units).Ordered := by
  unfold Plan.Ordered tagged
  rw [pairwise_map]
  exact pairwise_of_forall fun _ _ => le_rfl

theorem Plan.Ordered.append {p q : Plan} {k : Nat} (hp : p.Ordered) (hq : q.Ordered)
    (hpk : ∀ e ∈ p, e.1.rank ≤ k) (hqk : ∀ e ∈ q, k ≤ e.1.rank) : (p ++ q).Ordered :=
  pairwise_append.2 ⟨hp, hq, fun e he e' he' => (hpk e he).trans (hqk e' he')⟩

theorem mem_sectionPlan (h : e ∈ sectionPlan a dnssec rrsets) :
    e.1 = a.sect ∧ ∀ r ∈ e.2, r.Formed := by
  obtain ⟨u, -, rfl⟩ := mem_map.1 h
  exact ⟨rfl, unitRecords_formed⟩

theorem scanPacket_of_packet {qs : List Question} {done : Plan}
    (h : PacketSoFar (fun _ => False) flag qs done s) (hqs : qs.length ≤ 1) (hord : done.Ordered)
    (hformed : ∀ e ∈ done, ∀ r ∈ e.2, r.Formed) (hmax : s.pkt.position < 65536) :
    scanPacket s.pkt.flip =
      some ⟨qs.map Question.lower, fun sect => (done.of sect).map Record.lower⟩ := by
  obtain ⟨mid, hq, hmid, hrec⟩ := h.body
  obtain ⟨counts, hhead, hcounts⟩ := h.header
  rw [hord.flatMap_eq] at hrec
  have hof : ∀ sect, ∀ r ∈ done.of sect, r.Formed := by
    intro sect r hr
    obtain ⟨e, he, hre⟩ := mem_flatMap.1 hr
    exact hformed e (mem_of_mem_filter he) r hre
  obtain ⟨p1, h1, hrec⟩ := hrec.split
  obtain ⟨p2, h2, h3⟩ := hrec.split
  have l1 := h1.le
  have l2 := h2.le
  have l3 := h3.le
  have hcount : ∀ sect, (done.of sect).length < 65536 →
      readU16 s.pkt.flip.data (countOffset sect) = (done.of sect).length := fun sect hlt =>
    (hhead.counts sect).trans ((hcounts sect id).trans (Nat.mod_eq_of_lt hlt))
  have c1 : readU16 s.pkt.flip.data 6 = _ := hcount .answer (by omega)
  have c2 : readU16 s.pkt.flip.data 8 = _ := hcount .authority (by omega)
  have c3 : readU16 s.pkt.flip.data 10 = _ := hcount .additional (by omega)
  have hquestions : scanQuestions s.pkt.flip (readU16 s.pkt.flip.data 4) 12 =
      some (qs.map Question.lower, mid) := by
    rw [show readU16 s.pkt.flip.data 4 = qs.length from hhead.qdcount]
    rcases qs with _ | ⟨q, _ | _⟩
    · rw [hmid rfl]
      rfl
    · rw [length_singleton, scanQuestions, scanQuestion_of_questionAt (hq q (by simp))]
      rfl
    · simp at hqs
  have hstart : ¬s.pkt.flip.limit < 12 := Nat.not_lt.2 h.start
  unfold scanPacket
  rw [if_neg hstart, hquestions, c1, c2, c3]
  simp only [scanRecords_of_recordsAt (hof _) h1 (by omega) (by omega),
    scanRecords_of_recordsAt (hof _) h2 (by omega) (by omega),
    scanRecords_of_recordsAt (hof _) h3 le_rfl hmax, Option.bind_eq_bind,
    Option.bind_some, pure]
  have hend : ¬s.pkt.position ≠ s.pkt.flip.limit := not_not_intro rfl
  rw [if_neg hend]
  congr 2
  funext sect
  cases sect <;> rfl

end scan

section reply
variable {cfg : EncodeConfig} {qinfo : QueryInfo} {rep : ReplyInfo} {id flags udpsize : UInt16}
  {buffer : Sbuffer} {timenow : Int} {region : Nat → Bool} {dnssec minimise : Bool} {t : EncState}

theorem replyPlan_ordered : (replyPlan cfg qinfo rep id flags timenow dnssec minimise).Ordered := by
  have hrank : ∀ {a : SectionArgs} {rrsets : List PackedRrset} {e : Section × List Record},
      e ∈ sectionPlan a dnssec rrsets → e.1.rank = a.sect.rank := fun he => by
    rw [(mem_sectionPlan he).1]
  unfold replyPlan
  refine ordered_tagged.append (k := 0) ?_ (fun e he => Nat.le_of_eq (hrank he))
    fun _ _ => Nat.zero_le _
  refine ordered_tagged.append (k := 0) ?_ (fun e he => Nat.le_of_eq (hrank he))
    fun _ _ => Nat.zero_le _
  split
  · exact .nil
  refine ordered_tagged.append (k := 1) ?_ (fun e he => Nat.le_of_eq (hrank he)) ?_
  · split
    · exact .nil
    · exact ordered_tagged
  · intro e he
    split at he
    · cases he
    · rw [hrank he]
      exact Nat.le_succ 1

theorem replyPlan_formed :
    ∀ e ∈ replyPlan cfg qinfo rep id flags timenow dnssec minimise, ∀ r ∈ e.2, r.Formed := by
  have hsect : ∀ a rrsets, ∀ e ∈ sectionPlan a dnssec rrsets, ∀ r ∈ e.2, r.Formed :=
    fun _ _ _ he => (mem_sectionPlan he).2
  refine forall_mem_append.2 ⟨hsect _ _, forall_mem_append.2 ⟨hsect _ _, ?_⟩⟩
  split
  · exact forall_mem_nil _
  refine forall_mem_append.2 ⟨hsect _ _, ?_⟩
  split
  · exact forall_mem_nil _
  · exact hsect _ _

def tcWire (pkt : Sbuffer) : Bool := pkt.data 2 &&& 0x02 != 0

theorem tcWire_or (x : UInt8) : (x ||| 0x02) &&& 0x02 ≠ 0 := by
  rw [ne_eq, ← UInt8.toNat_inj, UInt8.toNat_and, UInt8.toNat_or]
  change ¬(x.toNat ||| 2 ^ 1) &&& 2 ^ 1 = 0
  rw [Nat.and_two_pow, Nat.testBit_or, Nat.testBit_two_pow_self, Bool.or_true]
  decide

theorem tcWire_flags : (flags.toNat / 256).toUInt8 &&& 0x02 ≠ 0 ↔ flags &&& 0x0200 ≠ 0 := by
  have hlt := flags.toNat_lt
  have hflag : (flags.toNat / 256).toUInt8.toNat = flags.toNat / 2 ^ 8 :=
    toNat_toUInt8_of_lt (by omega)
  rw [ne_eq, ne_eq, ← UInt8.toNat_inj, ← UInt16.toNat_inj, UInt8.toNat_and, UInt16.toNat_and, hflag]
  change ¬flags.toNat / 2 ^ 8 &&& 2 ^ 1 = 0 ↔ ¬flags.toNat &&& 2 ^ 9 = 0
  rw [Nat.and_two_pow, Nat.and_two_pow, Nat.testBit_div_two_pow]
  cases Nat.testBit flags.toNat (8 + 1) <;> decide

theorem replyQuestions_length : (replyQuestions qinfo rep).length ≤ 1 := by
  unfold replyQuestions
  split
  · exact Nat.le_refl 1
  · exact Nat.zero_le 1

theorem tcWire_flip (hu : PacketSoFar (fun _ => False) flag qs done u) :
    tcWire u.pkt.flip = true ↔ flag &&& 0x02 ≠ 0 := by
  obtain ⟨_, hhead, -⟩ := hu.header
  unfold tcWire
  rw [show u.pkt.flip.data 2 = flag from hhead.flag]
  exact bne_iff_ne

end reply

end CwdGate.Encode

import UnwindCheck.Lsda.Format

/-! Where the call sites of a function are placed, by the reader and by the language runtime. -/
namespace UnwindCheck

/-- The base for landing pads: the function itself unless another is named. -/
def LSDA.lpstartOr (lsda : LSDA) (fdePcBegin : Word) : Word :=
  (lsda.lpstart.map Prod.snd).getD fdePcBegin

/-- Where the personality routine places a record: the range from the function's start on, the
landing pad from `@LPStart` on. -/
def CallSiteEntry.placed (fdePcBegin lpstart : Word) (entry : CallSiteEntry) : LSDACallSite :=
  ⟨fdePcBegin + entry.start, fdePcBegin + entry.start + entry.length, lpstart + entry.pad⟩

/-- The call sites with a landing pad. -/
def LSDA.sites (lsda : LSDA) (fdePcBegin : Word) : List LSDACallSite :=
  (lsda.entries.filter fun entry => entry.pad ≠ 0).map
    (CallSiteEntry.placed fdePcBegin (lsda.lpstartOr fdePcBegin))

/-- The reader finds every call site where the runtime would, once each and in order. -/
def CallSitesPlaced (image : ELFImage) (lsdaVaddr fdePcBegin : Word) (lsda : LSDA) : Prop :=
  ∃ sites, readLSDACallSites image lsdaVaddr fdePcBegin = .ok sites ∧
    sites.Perm (lsda.sites fdePcBegin) ∧ sites.Pairwise fun a b => a.start ≤ b.start

/-- Nothing has to be read in an encoding the reader has no case for. -/
def LSDA.Readable (lsda : LSDA) : Prop :=
  (∀ encoding ∈ lsda.lpstart.map Prod.fst, KnownEncoding encoding) ∧
    (lsda.entries ≠ [] → KnownEncoding lsda.encoding)

/-- The two bases are one, or nothing is measured from them. -/
def LSDA.OneBase (lsda : LSDA) (fdePcBegin : Word) : Prop :=
  lsda.lpstartOr fdePcBegin = fdePcBegin ∨ ∀ entry ∈ lsda.entries, entry.pad = 0

section Header
variable {image : ELFImage} {vaddr : Word} {bytes rest : List Byte}

/-- What follows `@LPStart`. -/
def readTables (image : ELFImage) (lpstart : Word) : LSDACursor (List LSDACallSite) := do
  let typeEncoding ← LSDACursor.readU8 image
  if typeEncoding ≠ kDwEhPeOmitted then
    let _ ← LSDACursor.readUleb128 image
  let callSiteEncoding ← LSDACursor.readU8 image
  let length ← LSDACursor.readUleb128 image
  let tableEnd := (← get) + length
  readCallSites image callSiteEncoding lpstart tableEnd (2 ^ 64)

theorem readLSDA_eq (image : ELFImage) (fdePcBegin : Word) :
    readLSDA image fdePcBegin = (do
      let startEncoding ← LSDACursor.readU8 image
      let lpstart ← if startEncoding ≠ kDwEhPeOmitted then
          LSDACursor.readEncoded image startEncoding
        else pure fdePcBegin
      readTables image lpstart) := rfl

theorem cursor_cons (vaddr : Word) (b : Byte) (bytes : List Byte) :
    vaddr + BitVec.ofNat 64 [b].length + BitVec.ofNat 64 bytes.length =
      vaddr + BitVec.ofNat 64 (b :: bytes).length := by
  rw [add_assoc, ← BitVec.ofNat_add, ← List.length_append]
  rfl

/-- Past `@LPStart`, whichever way it is given. -/
theorem readLSDA_run {lp : List Byte} {lpstart : Option (Byte × Word)} (fdePcBegin : Word)
    (hlp : OptionalField (EncodedField (vaddr + 1)) lp lpstart)
    (hknown : ∀ encoding ∈ lpstart.map Prod.fst, KnownEncoding encoding)
    (h : image.Backs vaddr (lp ++ rest)) :
    (readLSDA image fdePcBegin).run vaddr =
      (readTables image ((lpstart.map Prod.snd).getD fdePcBegin)).run
        (vaddr + BitVec.ofNat 64 lp.length) := by
  rw [readLSDA_eq]
  cases hlp with
  | omitted =>
    rw [(LSDACursor.readU8_reads kDwEhPeOmitted).run_bind h, if_neg (by simp), pure_bind]
    rfl
  | @present encoding bytes v hne hv =>
    have hfield : image.Backs (vaddr + BitVec.ofNat 64 [encoding].length) (bytes ++ rest) :=
      ELFImage.Backs.tail h
    have hread : LSDACursor.Reads image (vaddr + BitVec.ofNat 64 [encoding].length) bytes
        (LSDACursor.readEncoded image encoding) v := LSDACursor.readEncoded_reads (hknown encoding rfl) hv
    rw [(LSDACursor.readU8_reads encoding).run_bind h, if_pos hne, hread.run_bind hfield,
      cursor_cons]
    rfl

theorem readTables_run {tt size : List Byte} {ttype : Option (Byte × Word)} {n : ℕ} (lpstart : Word)
    (encoding : Byte)
    (htt : OptionalField
      (fun _ bytes v => ∃ n, Uleb128 bytes n ∧ n < 2 ^ 64 ∧ v = BitVec.ofNat 64 n) tt ttype)
    (hsize : Uleb128 size n)
    (h : image.Backs vaddr (tt ++ ([encoding] ++ (size ++ rest)))) :
    (readTables image lpstart).run vaddr =
      (readCallSites image encoding lpstart
        (vaddr + BitVec.ofNat 64 (tt.length + 1 + size.length) + BitVec.ofNat 64 n) (2 ^ 64)).run
        (vaddr + BitVec.ofNat 64 (tt.length + 1 + size.length)) := by
  have hafter := h.tail
  have hend : (do
      let callSiteEncoding ← LSDACursor.readU8 image
      let length ← LSDACursor.readUleb128 image
      let tableEnd := (← get) + length
      readCallSites image callSiteEncoding lpstart tableEnd (2 ^ 64)).run
        (vaddr + BitVec.ofNat 64 tt.length) =
      (readCallSites image encoding lpstart
        (vaddr + BitVec.ofNat 64 (tt.length + 1 + size.length) + BitVec.ofNat 64 n) (2 ^ 64)).run
        (vaddr + BitVec.ofNat 64 (tt.length + 1 + size.length)) := by
    rw [(LSDACursor.readU8_reads encoding).run_bind hafter, (LSDACursor.readUleb128_reads hsize).run_bind hafter.tail,
      StateT.run_bind, StateT.run_get, pure_bind, BitVec.ofNat_add, BitVec.ofNat_add, ← add_assoc,
      ← add_assoc]
    rfl
  unfold readTables
  cases htt with
  | omitted =>
    rw [(LSDACursor.readU8_reads kDwEhPeOmitted).run_bind h, if_neg (by simp)]
    exact hend
  | @present ttEncoding bytes v hne hv =>
    obtain ⟨m, hm, -⟩ := hv
    have hfield : image.Backs (vaddr + BitVec.ofNat 64 [ttEncoding].length)
        (bytes ++ ([encoding] ++ (size ++ rest))) := ELFImage.Backs.tail h
    rw [(LSDACursor.readU8_reads ttEncoding).run_bind h, if_pos hne,
      (LSDACursor.readUleb128_reads hm).run_bind hfield, cursor_cons]
    exact hend

/-- The cursor at the call-site table. -/
theorem readLSDA_toTable {lsda : LSDA} (fdePcBegin : Word) (h : WellFormedLSDA image vaddr lsda)
    (hknown : ∀ encoding ∈ lsda.lpstart.map Prod.fst, KnownEncoding encoding) :
    ∃ a table, image.Backs a table ∧ CallSiteTable lsda.encoding a table lsda.entries ∧
      (readLSDA image fdePcBegin).run vaddr =
        (readCallSites image lsda.encoding (lsda.lpstartOr fdePcBegin)
          (a + BitVec.ofNat 64 table.length) (2 ^ 64)).run a := by
  obtain ⟨lp, tt, size, table, ttype, hbacks, hlp, htt, hsize, htable⟩ := h.layout
  have hbytes : lp ++ tt ++ [lsda.encoding] ++ size ++ table =
      lp ++ (tt ++ ([lsda.encoding] ++ (size ++ table))) := by
    simp only [List.append_assoc]
  rw [hbytes] at hbacks
  have hat : vaddr + BitVec.ofNat 64 (lp.length + tt.length + 1 + size.length) =
      vaddr + BitVec.ofNat 64 lp.length + BitVec.ofNat 64 (tt.length + 1 + size.length) := by
    rw [add_assoc vaddr, ← BitVec.ofNat_add, ← Nat.add_assoc, ← Nat.add_assoc]
  have htail : image.Backs
      (vaddr + BitVec.ofNat 64 lp.length + BitVec.ofNat 64 (tt.length + 1 + size.length)) table := by
    have h := (hbacks.tail.tail.tail).tail
    rw [BitVec.ofNat_add, BitVec.ofNat_add, ← add_assoc, ← add_assoc]
    exact h
  have hfits := htail.fits
  rw [hat] at htable
  refine ⟨_, table, htail, htable, ?_⟩
  rw [readLSDA_run fdePcBegin hlp hknown hbacks,
    readTables_run _ lsda.encoding htt hsize hbacks.tail]
  rfl

theorem CallSiteTable.length_le {encoding : Byte} {entries : List CallSiteEntry}
    (h : CallSiteTable encoding vaddr bytes entries) : entries.length ≤ bytes.length := by
  induction h with
  | nil => simp
  | cons _ _ _ haction _ _ ih =>
    have hpos := haction.length_pos
    simp only [List.length_append, List.length_cons]
    omega

/-- What the reader returns where it has a case for every encoding. -/
theorem readLSDA_ok {lsda : LSDA} (fdePcBegin : Word) (h : WellFormedLSDA image vaddr lsda)
    (hread : lsda.Readable) :
    ∃ a, (readLSDA image fdePcBegin).run vaddr =
      .ok (lsda.entries.filterMap (CallSiteEntry.site (lsda.lpstartOr fdePcBegin)), a) := by
  obtain ⟨a, table, hbacks, htable, hrun⟩ := readLSDA_toTable fdePcBegin h hread.1
  have hfits := hbacks.fits
  have hlen := htable.length_le
  rw [← List.append_nil table] at hbacks
  by_cases hnil : lsda.entries = []
  · -- an empty table is not read at all
    rw [hnil] at htable ⊢
    cases htable
    rw [hrun, List.length_nil, BitVec.add_zero]
    exact ⟨_, readCallSites_stop (BitVec.lt_irrefl _)⟩
  · rw [hrun, readCallSites_reads _ (hread.2 hnil) htable (by omega) [] hbacks]
    exact ⟨_, rfl⟩

theorem readLSDA_unknown {encoding : Byte} (fdePcBegin : Word) (hne : encoding ≠ kDwEhPeOmitted)
    (h : ¬ KnownEncoding encoding) (hbacks : image.Backs vaddr ([encoding] ++ rest)) :
    ∃ e, (readLSDA image fdePcBegin).run vaddr = .error e := by
  obtain ⟨e, he⟩ := readEncoded_unknown h (vaddr + BitVec.ofNat 64 [encoding].length)
  refine ⟨e, ?_⟩
  rw [readLSDA_eq, (LSDACursor.readU8_reads encoding).run_bind hbacks, if_pos hne, StateT.run_bind, he]
  rfl

/-- Where it has none, it gives up. -/
theorem readLSDA_error {lsda : LSDA} (fdePcBegin : Word) (h : WellFormedLSDA image vaddr lsda)
    (hread : ¬ lsda.Readable) : ∃ e, (readLSDA image fdePcBegin).run vaddr = .error e := by
  by_cases hknown : ∀ encoding ∈ lsda.lpstart.map Prod.fst, KnownEncoding encoding
  · obtain ⟨a, table, hbacks, htable, hrun⟩ := readLSDA_toTable fdePcBegin h hknown
    have hsites : lsda.entries ≠ [] ∧ ¬ KnownEncoding lsda.encoding := by
      unfold LSDA.Readable at hread
      tauto
    have hlen := htable.length_le
    have hpos := List.length_pos_of_ne_nil hsites.1
    rw [← List.append_nil table] at hbacks
    have hbefore := hbacks.lt_end (by omega)
    obtain ⟨e, he⟩ := readEncoded_unknown hsites.2 a
    refine ⟨e, ?_⟩
    rw [hrun, show (2 ^ 64 : ℕ) = (2 ^ 64 - 1) + 1 by norm_num, readCallSites_more hbefore,
      StateT.run_bind, readCallSite, StateT.run_bind, he]
    rfl
  · obtain ⟨lp, tt, size, table, ttype, hbacks, hlp, -⟩ := h.layout
    simp only [List.append_assoc] at hbacks
    push Not at hknown
    obtain ⟨encoding, hmem, hunknown⟩ := hknown
    generalize lsda.lpstart = lpstart at hmem hlp
    cases hlp with
    | omitted => cases hmem
    | present hne hv =>
      cases hmem
      exact readLSDA_unknown fdePcBegin hne hunknown hbacks

end Header

section Translate
variable {l : List Word} {d : Word}

/-- No nonempty set of offsets below half the space is its own translate. -/
theorem exists_translate_not_mem (hne : l ≠ []) (hd : d ≠ 0) (hlt : ∀ w ∈ l, w.toNat < 2 ^ 63) :
    ∃ w ∈ l, w + d ∉ l := by
  have hne' : l.toFinset.Nonempty := by
    obtain ⟨w, hw⟩ := List.exists_mem_of_ne_nil l hne
    exact ⟨w, List.mem_toFinset.mpr hw⟩
  have hd0 : 0 < d.toNat := by
    rw [Nat.pos_iff_ne_zero]
    intro h
    exact hd (BitVec.eq_of_toNat_eq h)
  have hd64 := d.isLt
  by_cases hd63 : d.toNat < 2 ^ 63
  · -- the last one moves up, within the space
    obtain ⟨w, hw, hmax⟩ := l.toFinset.exists_max_image BitVec.toNat hne'
    have hwl := List.mem_toFinset.mp hw
    refine ⟨w, hwl, ?_⟩
    intro hmem
    have hle := hmax _ (List.mem_toFinset.mpr hmem)
    have hw63 := hlt w hwl
    rw [BitVec.toNat_add, Nat.mod_eq_of_lt (by omega)] at hle
    omega
  · -- the first one moves down, or up into the other half
    obtain ⟨w, hw, hmin⟩ := l.toFinset.exists_min_image BitVec.toNat hne'
    have hwl := List.mem_toFinset.mp hw
    refine ⟨w, hwl, ?_⟩
    intro hmem
    have hle := hmin _ (List.mem_toFinset.mpr hmem)
    have hlt63 := hlt _ hmem
    have hw63 := hlt w hwl
    rw [BitVec.toNat_add] at hle hlt63
    omega

end Translate

/-- The reader measures the ranges from `@LPStart` on as well. -/
theorem filterMap_site_eq (lpstart : Word) (entries : List CallSiteEntry) :
    entries.filterMap (CallSiteEntry.site lpstart) =
      (entries.filter fun entry => entry.pad ≠ 0).map (CallSiteEntry.placed lpstart lpstart) := by
  induction entries with
  | nil => rfl
  | cons entry entries ih =>
    rw [List.filterMap_cons, List.filter_cons, CallSiteEntry.site, ih]
    by_cases hpad : entry.pad ≠ 0
    · rw [if_pos hpad, if_pos (decide_eq_true hpad)]
      rfl
    · rw [if_neg hpad, if_neg (by simpa using hpad)]

/-- Two bases place the same sites only if there are none. -/
theorem perm_placed_iff {entries : List CallSiteEntry} {fdePcBegin lpstart : Word}
    (hstarts : ∀ entry ∈ entries, entry.start.toNat < 2 ^ 63) :
    (entries.map (CallSiteEntry.placed lpstart lpstart)).Perm
        (entries.map (CallSiteEntry.placed fdePcBegin lpstart)) ↔
      lpstart = fdePcBegin ∨ entries = [] := by
  constructor
  · intro hperm
    by_contra! hne
    obtain ⟨hbase, hnil⟩ := hne
    have hd : lpstart - fdePcBegin ≠ 0 := by
      intro h
      exact hbase (BitVec.sub_eq_iff_eq_add.mp h |>.trans (BitVec.zero_add _))
    have hl : entries.map CallSiteEntry.start ≠ [] := by simpa using hnil
    have hlt : ∀ w ∈ entries.map CallSiteEntry.start, w.toNat < 2 ^ 63 := by
      intro w hw
      obtain ⟨entry, hentry, rfl⟩ := List.mem_map.mp hw
      exact hstarts entry hentry
    obtain ⟨w, hw, hout⟩ := exists_translate_not_mem hl hd hlt
    obtain ⟨entry, hentry, rfl⟩ := List.mem_map.mp hw
    apply hout
    -- the site this record becomes is one that another record should be
    have hsite := hperm.subset (List.mem_map_of_mem hentry)
    obtain ⟨other, hother, heq⟩ := List.mem_map.mp hsite
    have hstart : fdePcBegin + other.start = lpstart + entry.start :=
      congrArg LSDACallSite.start heq
    have hfrom : entry.start + (lpstart - fdePcBegin) = other.start := by
      calc entry.start + (lpstart - fdePcBegin)
        _ = lpstart + entry.start - fdePcBegin := by ring
        _ = other.start := by rw [← hstart]; ring
    rw [hfrom]
    exact List.mem_map_of_mem hother
  · rintro (rfl | rfl)
    · exact List.Perm.refl _
    · exact List.Perm.refl _

/-- What the reader makes of the records it has read. -/
theorem readLSDACallSites_ok {image : ELFImage} {lsdaVaddr : Word} {lsda : LSDA} (fdePcBegin : Word)
    (h : WellFormedLSDA image lsdaVaddr lsda) (hread : lsda.Readable) :
    ∃ sites, readLSDACallSites image lsdaVaddr fdePcBegin = .ok sites ∧
      sites.Perm ((lsda.entries.filter fun entry => entry.pad ≠ 0).map
        (CallSiteEntry.placed (lsda.lpstartOr fdePcBegin) (lsda.lpstartOr fdePcBegin))) ∧
      sites.Pairwise fun a b => a.start ≤ b.start := by
  obtain ⟨a, hrun⟩ := readLSDA_ok fdePcBegin h hread
  rw [filterMap_site_eq] at hrun
  have htotal : Std.Total fun a b : LSDACallSite => a.start ≤ b.start :=
    ⟨fun a b => BitVec.le_total a.start b.start⟩
  have htrans : IsTrans LSDACallSite fun a b => a.start ≤ b.start :=
    ⟨fun _ _ _ => BitVec.le_trans⟩
  refine ⟨_, ?_, List.perm_insertionSort _ _, List.pairwise_insertionSort _ _⟩
  unfold readLSDACallSites
  rw [hrun]
  rfl

/-- The call sites are placed where the runtime places them exactly when the reader has a case for
every encoding, and the base of the landing pads is the start of the function or there are no
landing pads. -/
theorem callSitesPlaced_iff {image : ELFImage} {lsdaVaddr : Word} {lsda : LSDA} (fdePcBegin : Word)
    (h : WellFormedLSDA image lsdaVaddr lsda) :
    CallSitesPlaced image lsdaVaddr fdePcBegin lsda ↔ lsda.Readable ∧ lsda.OneBase fdePcBegin := by
  have hstarts : ∀ entry ∈ lsda.entries.filter fun entry => entry.pad ≠ 0,
      entry.start.toNat < 2 ^ 63 := by
    intro entry hentry
    exact h.starts entry (List.mem_filter.mp hentry).1
  have hbase : lsda.OneBase fdePcBegin ↔ lsda.lpstartOr fdePcBegin = fdePcBegin ∨
      (lsda.entries.filter fun entry => entry.pad ≠ 0) = [] := by
    rw [LSDA.OneBase, List.filter_eq_nil_iff]
    simp
  rw [hbase, ← perm_placed_iff hstarts]
  constructor
  · rintro ⟨sites, hok, hperm, -⟩
    have hread : lsda.Readable := by
      by_contra hread
      obtain ⟨e, hrun⟩ := readLSDA_error fdePcBegin h hread
      unfold readLSDACallSites at hok
      rw [hrun] at hok
      cases hok
    obtain ⟨read, hread', hreadPerm, -⟩ := readLSDACallSites_ok fdePcBegin h hread
    rw [hok] at hread'
    cases hread'
    exact ⟨hread, hreadPerm.symm.trans hperm⟩
  · rintro ⟨hread, hperm⟩
    obtain ⟨sites, hok, hreadPerm, hsorted⟩ := readLSDACallSites_ok fdePcBegin h hread
    exact ⟨sites, hok, hreadPerm.trans hperm, hsorted⟩

/-- An image of a data area alone backs it. -/
theorem ofCode_backs {vaddr : Word} {code : List Byte} (h : vaddr.toNat + code.length < 2 ^ 64) :
    (ELFImage.ofCode vaddr code).Backs vaddr code := by
  constructor
  · exact h
  · intro i k hik
    rcases Nat.eq_zero_or_pos k with rfl | hk
    · exact List.eq_nil_of_length_eq_zero (Nat.le_zero.mp (ELFImage.length_bytesAt_le _ _ _))
    · have hsub : ∀ n, vaddr + BitVec.ofNat 64 n - vaddr = BitVec.ofNat 64 n := by
        intro n
        ring
      have hin : vaddr ≤ vaddr + BitVec.ofNat 64 i ∧
          vaddr + BitVec.ofNat 64 i - vaddr < BitVec.ofNat 64 code.length := by
        rw [hsub, BitVec.le_def, BitVec.lt_def, BitVec.toNat_add, BitVec.toNat_ofNat,
          BitVec.toNat_ofNat]
        omega
      have hroom : (BitVec.ofNat 64 code.length - BitVec.ofNat 64 i).toNat = code.length - i := by
        rw [BitVec.toNat_sub_of_le (by rw [BitVec.le_def, BitVec.toNat_ofNat, BitVec.toNat_ofNat]; omega),
          BitVec.toNat_ofNat, BitVec.toNat_ofNat]
        omega
      unfold ELFImage.bytesAt ELFImage.ofCode
      rw [List.find?_cons_of_pos (by simpa using hin)]
      dsimp only
      rw [hsub, hroom, Nat.min_eq_left (by omega)]
      apply List.ext_getElem
      · simp [readMem]
        omega
      · intro j hj hj'
        simp only [readMem, List.length_map, List.length_range] at hj
        simp only [readMem, List.getElem_map, List.getElem_range, List.getElem_take,
          List.getElem_drop]
        rw [add_assoc, ← BitVec.ofNat_add, hsub, BitVec.toNat_ofNat, Nat.mod_eq_of_lt (by omega),
          List.getD_eq_getElem _ _ (by omega)]

/-- A function with one call that can throw, the base of its landing pads at `lpstart`. -/
def lsdaSample (lpstart : List Byte) : List Byte :=
  lpstart ++ [0xff] ++ [0x01] ++ [0x04] ++ [0x02, 0x05, 0x10, 0x01]

theorem uleb128_byte {b : Byte} (hb : b.toNat < 128) : Uleb128 [b] b.toNat := by
  refine ⟨.last hb, by simp, ?_⟩
  simp [Lib.Leb128.unsignedValue, Lib.Leb128.payload, Nat.mod_eq_of_lt hb]

theorem sample_table (vaddr : Word) :
    CallSiteTable 0x01 vaddr [0x02, 0x05, 0x10, 0x01] [⟨0x02, 0x05, 0x10⟩] := by
  have hbyte : ∀ {b : Byte}, b.toNat < 128 → Uleb128 [b] b.toNat := uleb128_byte
  exact @CallSiteTable.cons 0x01 vaddr _ [0x02] [0x05] [0x10] [0x01] [] 1 _
    (.uleb128 (hbyte (by decide)) (by decide)) (.uleb128 (hbyte (by decide)) (by decide))
    (.uleb128 (hbyte (by decide)) (by decide)) (hbyte (by decide)) (by decide) .nil

/-- With no base of its own the function's start is it. -/
theorem omitted_lpstart_wellFormed :
    WellFormedLSDA (ELFImage.ofCode 0x2000 (lsdaSample [0xff])) 0x2000
      ⟨none, 0x01, [⟨0x02, 0x05, 0x10⟩]⟩ where
  layout := ⟨[0xff], [0xff], [0x04], [0x02, 0x05, 0x10, 0x01], none, ofCode_backs (by decide),
    .omitted, .omitted, uleb128_byte (by decide), sample_table _⟩
  starts := by decide

/-- The landing pads of a split function: the base of the pads is where its hot part is. -/
theorem explicit_lpstart_wellFormed :
    WellFormedLSDA (ELFImage.ofCode 0x2000 (lsdaSample [0x03, 0x00, 0x50, 0x00, 0x00])) 0x2000
      ⟨some (0x03, 0x5000), 0x01, [⟨0x02, 0x05, 0x10⟩]⟩ where
  layout := ⟨[0x03, 0x00, 0x50, 0x00, 0x00], [0xff], [0x04], [0x02, 0x05, 0x10, 0x01], none,
    ofCode_backs (by decide),
    .present (by decide) (@EncodedField.fixed _ _ 4 false _ (by decide) (.inl (by decide)) rfl),
    .omitted, uleb128_byte (by decide), sample_table _⟩
  starts := by decide

theorem omitted_lpstart_placed :
    CallSitesPlaced (ELFImage.ofCode 0x2000 (lsdaSample [0xff])) 0x2000 0x1000
      ⟨none, 0x01, [⟨0x02, 0x05, 0x10⟩]⟩ :=
  (callSitesPlaced_iff 0x1000 omitted_lpstart_wellFormed).mpr
    ⟨⟨by simp, fun _ => by decide⟩, .inl rfl⟩

/-- A base apart from the function moves the range along with the landing pad. -/
theorem explicit_lpstart_misplaced :
    ¬ CallSitesPlaced (ELFImage.ofCode 0x2000 (lsdaSample [0x03, 0x00, 0x50, 0x00, 0x00])) 0x2000 0x1000
      ⟨some (0x03, 0x5000), 0x01, [⟨0x02, 0x05, 0x10⟩]⟩ := by
  rintro ⟨sites, hok, hperm, -⟩
  obtain ⟨read, hread, hreadPerm, -⟩ := readLSDACallSites_ok 0x1000 explicit_lpstart_wellFormed
    ⟨by decide, fun _ => by decide⟩
  rw [hok] at hread
  cases hread
  have hsites := hperm.symm.trans hreadPerm
  revert hsites
  decide

end UnwindCheck

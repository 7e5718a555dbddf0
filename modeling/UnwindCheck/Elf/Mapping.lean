import UnwindCheck.Elf.Open

/-! Where the loader's `MAP_FIXED` calls land, compared with the reservation. -/
namespace UnwindCheck

/-- Rounding of exact addresses, without the wrap-around of `roundDown` and `roundUp`. -/
def pageFloor (n : ℕ) : ℕ := n / 4096 * 4096

def pageCeil (n : ℕ) : ℕ := pageFloor (n + 4095)

theorem toNat_roundDown (v : Word) : (roundDown v kPageSize).toNat = pageFloor v.toNat := by
  have h : roundDown v kPageSize = (v >>> 12) <<< 12 := by
    ext i hi
    have hmask : (kPageSize - 1)[i] = decide (i < 12) := by
      rw [show kPageSize - 1 = BitVec.ofNat 64 (2 ^ 12 - 1) from rfl, ← BitVec.getLsbD_eq_getElem,
        BitVec.getLsbD_ofNat, Nat.testBit_two_pow_sub_one]
      simp [hi]
    rw [roundDown, BitVec.getElem_and, BitVec.getElem_not, hmask, BitVec.getElem_shiftLeft]
    by_cases h12 : i < 12
    · simp [h12]
    · simp [h12, show 12 + (i - 12) = i by omega, BitVec.getLsbD_eq_getElem hi]
  rw [h]
  have hv := v.isLt
  simp only [BitVec.toNat_shiftLeft, BitVec.toNat_ushiftRight, Nat.shiftRight_eq_div_pow,
    Nat.shiftLeft_eq, pageFloor]
  omega

theorem toNat_roundUp (v : Word) :
    (roundUp v kPageSize).toNat = pageFloor ((v.toNat + 4095) % 2 ^ 64) := by
  have h : v + kPageSize - 1 = v + 4095 := by
    unfold kPageSize
    bv_omega
  rw [roundUp, h, toNat_roundDown, BitVec.toNat_add]
  rfl

theorem stdMin_le (a b : Word) : stdMin a b ≤ a ∧ stdMin a b ≤ b := by
  unfold stdMin
  split_ifs <;> constructor <;> bv_omega

theorem stdMin_eq (a b : Word) : stdMin a b = a ∨ stdMin a b = b := by
  unfold stdMin
  split_ifs <;> simp

theorem le_stdMax (a b : Word) : a ≤ stdMax a b ∧ b ≤ stdMax a b := by
  unfold stdMax
  split_ifs <;> constructor <;> bv_omega

theorem stdMax_eq (a b : Word) : stdMax a b = a ∨ stdMax a b = b := by
  unfold stdMax
  split_ifs <;> simp

/-- What the loop over the program headers has established once it saw the segments of `loads`. -/
structure PhdrScan.Sound (fileSize : Word) (loads : List Elf64Phdr) (scan : PhdrScan) : Prop where
  segments : scan.segments = loads.map Elf64Phdr.segment
  checked : ∀ p ∈ loads, p.filesz ≤ p.memsz ∧ fitsIn p.offset p.filesz fileSize
  minVaddr_le : ∀ p ∈ loads, scan.minVaddr ≤ p.vaddr
  minVaddr_eq : scan.minVaddr = BitVec.allOnes 64 ∨ ∃ p ∈ loads, scan.minVaddr = p.vaddr
  le_maxEnd : ∀ p ∈ loads, p.vaddr + p.memsz ≤ scan.maxEnd
  maxEnd_eq : scan.maxEnd = 0 ∨ ∃ p ∈ loads, scan.maxEnd = p.vaddr + p.memsz

/-- What one header can do to the scan. -/
theorem scanPhdr_cases {path : String} {fileSize : Word} {scan scan' : PhdrScan} {phdr : Elf64Phdr}
    (h : scanPhdr path fileSize scan phdr = .ok scan') :
    (phdr.isLoad = false ∧ scan'.segments = scan.segments ∧ scan'.minVaddr = scan.minVaddr ∧
      scan'.maxEnd = scan.maxEnd) ∨
    (phdr.isLoad = true ∧ (phdr.filesz ≤ phdr.memsz ∧ fitsIn phdr.offset phdr.filesz fileSize) ∧
      scan'.segments = scan.segments ++ [phdr.segment] ∧
      scan'.minVaddr = stdMin scan.minVaddr phdr.vaddr ∧
      scan'.maxEnd = stdMax scan.maxEnd (phdr.vaddr + phdr.memsz)) := by
  unfold scanPhdr at h
  split_ifs at h with hhdr hload hbad <;> cases h
  · left
    refine ⟨?_, rfl, rfl, rfl⟩
    simp [Elf64Phdr.isLoad, hhdr, kPtGnuEhFrame, kPtLoad]
  · left
    exact ⟨by simpa using hload, rfl, rfl, rfl⟩
  · right
    obtain ⟨hsz, hfit⟩ := not_or.mp hbad
    exact ⟨by simpa using hload, ⟨BitVec.not_lt.mp hsz, by simpa using hfit⟩, rfl, rfl, rfl⟩

theorem PhdrScan.Sound.scanPhdr {path : String} {fileSize : Word} {loads : List Elf64Phdr}
    {scan scan' : PhdrScan} {phdr : Elf64Phdr} (hs : scan.Sound fileSize loads)
    (h : UnwindCheck.scanPhdr path fileSize scan phdr = .ok scan') :
    scan'.Sound fileSize (loads ++ if phdr.isLoad then [phdr] else []) := by
  rcases scanPhdr_cases h with ⟨hload, hseg, hmin, hmax⟩ | ⟨hload, hok, hseg, hmin, hmax⟩
  · simp only [hload, Bool.false_eq_true, if_false, List.append_nil]
    exact ⟨hseg ▸ hs.segments, hs.checked, hmin ▸ hs.minVaddr_le, hmin ▸ hs.minVaddr_eq,
      hmax ▸ hs.le_maxEnd, hmax ▸ hs.maxEnd_eq⟩
  · obtain ⟨hlo, hlo'⟩ := stdMin_le scan.minVaddr phdr.vaddr
    obtain ⟨hhi, hhi'⟩ := le_stdMax scan.maxEnd (phdr.vaddr + phdr.memsz)
    simp only [hload, if_true]
    constructor
    · simp [hseg, hs.segments]
    · intro p hp
      rcases List.mem_append.mp hp with hp | hp
      · exact hs.checked p hp
      · rw [List.mem_singleton.mp hp]
        exact hok
    · intro p hp
      rw [hmin]
      rcases List.mem_append.mp hp with hp | hp
      · exact BitVec.le_trans hlo (hs.minVaddr_le p hp)
      · rw [List.mem_singleton.mp hp]
        exact hlo'
    · rw [hmin]
      rcases stdMin_eq scan.minVaddr phdr.vaddr with heq | heq
      · rw [heq]
        exact hs.minVaddr_eq.imp_right fun ⟨p, hp, he⟩ => ⟨p, List.mem_append_left _ hp, he⟩
      · exact Or.inr ⟨phdr, by simp, heq⟩
    · intro p hp
      rw [hmax]
      rcases List.mem_append.mp hp with hp | hp
      · exact BitVec.le_trans (hs.le_maxEnd p hp) hhi
      · rw [List.mem_singleton.mp hp]
        exact hhi'
    · rw [hmax]
      rcases stdMax_eq scan.maxEnd (phdr.vaddr + phdr.memsz) with heq | heq
      · rw [heq]
        exact hs.maxEnd_eq.imp_right fun ⟨p, hp, he⟩ => ⟨p, List.mem_append_left _ hp, he⟩
      · exact Or.inr ⟨phdr, by simp, heq⟩

theorem PhdrScan.Sound.foldlM {path : String} {fileSize : Word} {phdrs loads : List Elf64Phdr}
    {scan scan' : PhdrScan} (hs : scan.Sound fileSize loads)
    (h : phdrs.foldlM (UnwindCheck.scanPhdr path fileSize) scan = .ok scan') :
    scan'.Sound fileSize (loads ++ phdrs.filter Elf64Phdr.isLoad) := by
  induction phdrs generalizing scan loads with
  | nil =>
    cases h
    simpa using hs
  | cons phdr phdrs ih =>
    rw [List.foldlM_cons] at h
    obtain ⟨scan₁, hstep, h⟩ := except_bind_ok h
    have hrest := ih (hs.scanPhdr hstep) h
    rw [List.filter_cons]
    split_ifs with hload
    · simpa [hload] using hrest
    · simpa [hload] using hrest

theorem scanPhdrs_sound {path : String} {fileSize : Word} {phdrs : List Elf64Phdr}
    {scan : PhdrScan} (h : scanPhdrs path fileSize phdrs = .ok scan) :
    scan.Sound fileSize (phdrs.filter Elf64Phdr.isLoad) := by
  have hinit : PhdrScan.Sound fileSize [] ⟨[], BitVec.allOnes 64, 0, 0⟩ := by
    constructor <;> simp
  simpa using hinit.foldlM h

theorem PhdrScan.Sound.minVaddr_mem {fileSize : Word} {loads : List Elf64Phdr} {scan : PhdrScan}
    (hs : scan.Sound fileSize loads) (hne : loads ≠ []) :
    ∃ p ∈ loads, scan.minVaddr = p.vaddr := by
  rcases hs.minVaddr_eq with hall | h
  · obtain ⟨p, hp⟩ := List.exists_mem_of_ne_nil _ hne
    refine ⟨p, hp, ?_⟩
    have hle := hs.minVaddr_le p hp
    have hmax : (BitVec.allOnes 64).toNat = 2 ^ 64 - 1 := by decide
    bv_omega
  · exact h

theorem PhdrScan.Sound.maxEnd_mem {fileSize : Word} {loads : List Elf64Phdr} {scan : PhdrScan}
    (hs : scan.Sound fileSize loads) (hne : loads ≠ []) :
    ∃ p ∈ loads, scan.maxEnd = p.vaddr + p.memsz := by
  rcases hs.maxEnd_eq with hzero | h
  · obtain ⟨p, hp⟩ := List.exists_mem_of_ne_nil _ hne
    refine ⟨p, hp, ?_⟩
    have hle := hs.le_maxEnd p hp
    bv_omega
  · exact h

/-- The calls the loader makes: one for each segment with file contents. -/
theorem foldlM_mapSegment {os : Mmap} {path : String} {bias : Word} {segments : List ElfSegment}
    {made mappings : List Mapping}
    (h : segments.foldlM (mapSegment os path bias) made = .ok mappings) :
    mappings = made ++ (segments.filter (·.filesz ≠ 0)).map (fileMapping bias) := by
  induction segments generalizing made with
  | nil =>
    cases h
    simp
  | cons seg segments ih =>
    rw [List.foldlM_cons] at h
    obtain ⟨made₁, hstep, h⟩ := except_bind_ok h
    have hrest := ih h
    unfold mapSegment at hstep
    split_ifs at hstep with hsz hal
    · cases hstep
      simpa [hsz] using hrest
    · cases hfix : os.fixed (fileMapping bias seg).target (fileMapping bias seg).len
          (fileMapping bias seg).offset with
      | error e => simp [hfix] at hstep
      | ok u =>
        simp only [hfix] at hstep
        cases hstep
        rw [List.filter_cons_of_pos (by simpa using hsz)]
        simpa using hrest

/-- The image range of a mapping lies inside the reservation. -/
def Mapping.Inside (m : Mapping) (img : LoadedImage) : Prop :=
  img.image.toNat ≤ m.target.toNat ∧
    m.target.toNat + m.len.toNat ≤ img.image.toNat + img.imageSize.toNat

/-- An accepted file came through every check, and every call succeeded. -/
theorem openImage_cases {os : Mmap} {path : String} {file : ELFFile} {img : LoadedImage}
    (h : openImage os path file = .ok img) :
    ∃ (scan : PhdrScan) (image : Word) (mappings : List Mapping),
      scan.Sound (BitVec.ofNat 64 file.size) (file.phdrs.filter Elf64Phdr.isLoad) ∧
      scan.segments ≠ [] ∧ os.reserve scan.span = .ok image ∧
      (scan.segments.insertionSort fun a b => a.vaddr ≤ b.vaddr).foldlM
        (mapSegment os path (image - roundDown scan.minVaddr kPageSize)) [] = .ok mappings ∧
      img = ⟨scan.segments.insertionSort fun a b => a.vaddr ≤ b.vaddr, image, scan.span,
        image - roundDown scan.minVaddr kPageSize, scan.ehFrameHdr, mappings⟩ := by
  unfold openImage at h
  obtain ⟨-, -, h⟩ := except_bind_ok h
  obtain ⟨scan, hscan, h⟩ := except_bind_ok h
  unfold fakeLoad at h
  split_ifs at h with hempty hspan
  cases hres : os.reserve scan.span with
  | error e => simp [hres] at h
  | ok image =>
    rw [hres] at h
    obtain ⟨mappings, hmap, h⟩ := except_bind_ok h
    cases h
    exact ⟨scan, image, mappings, scanPhdrs_sound hscan, hempty, hres, hmap, rfl⟩

/-- What an accepted file is turned into. -/
theorem openImage_ok {os : Mmap} {path : String} {file : ELFFile} {img : LoadedImage}
    (h : openImage os path file = .ok img) :
    ∃ scan : PhdrScan, scan.Sound (BitVec.ofNat 64 file.size) (file.phdrs.filter Elf64Phdr.isLoad) ∧
      file.phdrs.filter Elf64Phdr.isLoad ≠ [] ∧ img.imageSize = scan.span ∧
      os.reserve scan.span = .ok img.image ∧
      img.bias = img.image - roundDown scan.minVaddr kPageSize ∧
      ∀ m, m ∈ img.mappings ↔ ∃ p ∈ file.phdrs.filter Elf64Phdr.isLoad, p.filesz ≠ 0 ∧
        m = fileMapping img.bias p.segment := by
  obtain ⟨scan, image, mappings, hsound, hempty, hres, hmap, rfl⟩ := openImage_cases h
  have hcalls := foldlM_mapSegment hmap
  refine ⟨scan, hsound, ?_, rfl, hres, rfl, ?_⟩
  · intro hnil
    exact hempty (by rw [hsound.segments, hnil, List.map_nil])
  · intro m
    simp only [hcalls, List.nil_append, List.mem_map, List.mem_filter, List.mem_insertionSort,
      hsound.segments, decide_eq_true_eq]
    constructor
    · rintro ⟨_, ⟨⟨p, hp, rfl⟩, hsz⟩, rfl⟩
      exact ⟨p, hp, hsz, rfl⟩
    · rintro ⟨p, hp, hsz, rfl⟩
      exact ⟨p.segment, ⟨⟨p, hp, rfl⟩, hsz⟩, rfl⟩

/-- The segments are those of the headers. -/
theorem mem_segments_of_openImage {os : Mmap} {path : String} {file : ELFFile} {img : LoadedImage}
    (h : openImage os path file = .ok img) (seg : ElfSegment) :
    seg ∈ img.segments ↔ ∃ p ∈ file.phdrs.filter Elf64Phdr.isLoad, seg = p.segment := by
  obtain ⟨scan, image, mappings, hsound, -, -, -, rfl⟩ := openImage_cases h
  simp only [List.mem_insertionSort, hsound.segments, List.mem_map, eq_comm]

/-- The pages from the one the file contents start in to the one they end in. -/
theorem toNat_fileMapping_len (bias : Word) {seg : ElfSegment} (hsz : seg.filesz.toNat < 2 ^ 63) :
    (fileMapping bias seg).len.toNat = pageCeil (seg.filesz.toNat + seg.vaddr.toNat % 4096) := by
  have hpage : (seg.vaddr - roundDown seg.vaddr kPageSize).toNat = seg.vaddr.toNat % 4096 := by
    have hv := seg.vaddr.isLt
    rw [BitVec.toNat_sub, toNat_roundDown, pageFloor]
    omega
  simp only [fileMapping, toNat_roundUp, BitVec.toNat_add, hpage, pageCeil]
  rw [Nat.mod_eq_of_lt (a := seg.filesz.toNat + seg.vaddr.toNat % 4096) (by omega),
    Nat.mod_eq_of_lt (by omega)]

/-- A segment's mapping is inside exactly when the exact end of its file contents, rounded up,
does not pass the end of the reservation. -/
theorem fileMapping_inside_iff {img : LoadedImage} {seg : ElfSegment} {minVaddr : Word}
    (hbias : img.bias = img.image - roundDown minVaddr kPageSize)
    (hfits : img.image.toNat + img.imageSize.toNat ≤ 2 ^ 64)
    (hmin : minVaddr ≤ seg.vaddr) (hne : seg.filesz ≠ 0) (hsz : seg.filesz.toNat < 2 ^ 63) :
    (fileMapping img.bias seg).Inside img ↔
      pageCeil (seg.vaddr.toNat + seg.filesz.toNat) ≤
        pageFloor minVaddr.toNat + img.imageSize.toNat := by
  have hv := seg.vaddr.isLt
  have hmin' : minVaddr.toNat ≤ seg.vaddr.toNat := hmin
  have hi := img.image.isLt
  have hpos : 0 < seg.filesz.toNat := by bv_omega
  have hlen := toNat_fileMapping_len img.bias hsz
  have htarget : (fileMapping img.bias seg).target.toNat =
      (img.image.toNat + (pageFloor seg.vaddr.toNat - pageFloor minVaddr.toNat)) % 2 ^ 64 := by
    simp only [fileMapping, toImage, hbias, BitVec.toNat_add, BitVec.toNat_sub, toNat_roundDown,
      pageFloor]
    omega
  unfold Mapping.Inside
  rw [hlen, htarget]
  simp only [pageCeil, pageFloor] at *
  omega

/-- The end a PT_LOAD asks for, as the loader computes it. -/
def Elf64Phdr.wrappedEnd (phdr : Elf64Phdr) : ℕ := (phdr.vaddr.toNat + phdr.memsz.toNat) % 2 ^ 64

theorem Elf64Phdr.end_le_wrappedEnd (phdr : Elf64Phdr) :
    phdr.vaddr.toNat + phdr.memsz.toNat ≤ phdr.wrappedEnd + 2 ^ 64 := by
  have hv := phdr.vaddr.isLt
  have hm := phdr.memsz.isLt
  unfold wrappedEnd
  omega

/-- No PT_LOAD passes the end of the address space in a way the reservation does not follow:
either every wrapped end lies at or below the first page of every PT_LOAD, or the file contents
of each PT_LOAD that passes it still end within the last page of some wrapped end. -/
def EndsReserved (loads : List Elf64Phdr) : Prop :=
  (∀ p ∈ loads, ∀ q ∈ loads, p.wrappedEnd ≤ pageFloor q.vaddr.toNat) ∨
    ∀ p ∈ loads, p.filesz ≠ 0 → 2 ^ 64 ≤ p.vaddr.toNat + p.memsz.toNat →
      ∃ q ∈ loads, p.vaddr.toNat + p.filesz.toNat ≤ pageCeil q.wrappedEnd

/-- The exact end of the reservation. -/
theorem PhdrScan.toNat_span (scan : PhdrScan) (hpos : scan.span ≠ 0) :
    pageFloor scan.minVaddr.toNat + scan.span.toNat =
      if pageCeil scan.maxEnd.toNat ≤ pageFloor scan.minVaddr.toNat then
        pageCeil scan.maxEnd.toNat + 2 ^ 64
      else pageCeil scan.maxEnd.toNat := by
  have hmax := scan.maxEnd.isLt
  have hmin := scan.minVaddr.isLt
  have hspan : scan.span.toNat = (pageFloor ((scan.maxEnd.toNat + 4095) % 2 ^ 64) + 2 ^ 64 -
      pageFloor scan.minVaddr.toNat) % 2 ^ 64 := by
    rw [PhdrScan.span, BitVec.toNat_sub, toNat_roundUp, toNat_roundDown]
    congr 1
    simp only [pageFloor]
    omega
  have hne : scan.span.toNat ≠ 0 := by bv_omega
  rw [hspan] at hne ⊢
  split_ifs with hle
  · simp only [pageCeil, pageFloor] at hle hne ⊢
    omega
  · simp only [pageCeil, pageFloor] at hle hne ⊢
    omega

/-- The mappings of an accepted file, against the exact end of the reservation. -/
theorem mappings_inside_iff {os : Mmap} {file : ELFFile} {img : LoadedImage}
    {scan : PhdrScan} (hs : scan.Sound (BitVec.ofNat 64 file.size)
      (file.phdrs.filter Elf64Phdr.isLoad)) (hsize : img.imageSize = scan.span)
    (hres : os.reserve scan.span = .ok img.image)
    (hbias : img.bias = img.image - roundDown scan.minVaddr kPageSize)
    (hmaps : ∀ m, m ∈ img.mappings ↔ ∃ p ∈ file.phdrs.filter Elf64Phdr.isLoad, p.filesz ≠ 0 ∧
      m = fileMapping img.bias p.segment) :
    (∀ m ∈ img.mappings, m.Inside img) ↔
      ∀ p ∈ file.phdrs.filter Elf64Phdr.isLoad, p.filesz ≠ 0 →
        pageCeil (p.vaddr.toNat + p.filesz.toNat) ≤
          pageFloor scan.minVaddr.toNat + scan.span.toNat := by
  have hfits : img.image.toNat + img.imageSize.toNat ≤ 2 ^ 64 := by
    rw [hsize]
    exact os.reserve_fits _ _ hres
  have hone : ∀ p ∈ file.phdrs.filter Elf64Phdr.isLoad, p.filesz ≠ 0 →
      ((fileMapping img.bias p.segment).Inside img ↔
        pageCeil (p.vaddr.toNat + p.filesz.toNat) ≤
          pageFloor scan.minVaddr.toNat + scan.span.toNat) := by
    intro p hp hne
    have hfile := (hs.checked p hp).2
    have hlt := file.size_lt
    have hsz : p.filesz.toNat < 2 ^ 63 := by
      simp only [fitsIn, decide_eq_true_eq] at hfile
      obtain ⟨hoff, hlen⟩ := hfile
      have hfsize : (BitVec.ofNat 64 file.size).toNat = file.size := by
        rw [BitVec.toNat_ofNat]
        omega
      bv_omega
    rw [← hsize]
    exact fileMapping_inside_iff hbias hfits (hs.minVaddr_le p hp) hne hsz
  constructor
  · intro h p hp hne
    exact (hone p hp hne).mp (h _ ((hmaps _).mpr ⟨p, hp, hne, rfl⟩))
  · intro h m hm
    obtain ⟨p, hp, hne, rfl⟩ := (hmaps m).mp hm
    exact (hone p hp hne).mpr (h p hp hne)

/-- The mappings of an accepted file all land inside the reservation exactly when the ends of
its PT_LOADs are reserved. -/
theorem mappings_inside_iff_endsReserved (os : Mmap) (path : String) (file : ELFFile)
    (img : LoadedImage) (h : openImage os path file = .ok img) :
    (∀ m ∈ img.mappings, m.Inside img) ↔
      EndsReserved (file.phdrs.filter Elf64Phdr.isLoad) := by
  obtain ⟨scan, hs, hne, hsize, hres, hbias, hmaps⟩ := openImage_ok h
  have hspan := scan.toNat_span (os.reserve_pos _ _ hres)
  have hend : ∀ p : Elf64Phdr, (p.vaddr + p.memsz).toNat = p.wrappedEnd := fun p =>
    BitVec.toNat_add _ _
  obtain ⟨first, hfirst, hmin⟩ := hs.minVaddr_mem hne
  obtain ⟨last, hlast, hmax⟩ := hs.maxEnd_mem hne
  rw [mappings_inside_iff hs hsize hres hbias hmaps, hspan, hmin, hmax, hend]
  have hlow : ∀ p ∈ file.phdrs.filter Elf64Phdr.isLoad, first.vaddr.toNat ≤ p.vaddr.toNat :=
    fun p hp => hmin ▸ hs.minVaddr_le p hp
  have hhigh : ∀ p ∈ file.phdrs.filter Elf64Phdr.isLoad, p.wrappedEnd ≤ last.wrappedEnd := by
    intro p hp
    have hle := hs.le_maxEnd p hp
    rw [hmax, BitVec.le_def, hend, hend] at hle
    exact hle
  have hsz : ∀ p ∈ file.phdrs.filter Elf64Phdr.isLoad, p.filesz.toNat ≤ p.memsz.toNat :=
    fun p hp => (hs.checked p hp).1
  unfold EndsReserved
  split_ifs with hbelow
  · -- every end wrapped below the first page: the reservation wraps with them
    refine iff_of_true ?_ (Or.inl ?_)
    · intro p hp _
      have h₁ := hlow p hp
      have h₂ := hhigh p hp
      have h₃ := hsz p hp
      have h₄ := p.end_le_wrappedEnd
      simp only [pageCeil, pageFloor]
      omega
    · intro p hp q hq
      have h₁ := hlow q hq
      have h₂ := hhigh p hp
      simp only [pageCeil, pageFloor] at hbelow ⊢
      omega
  · have hnot : ¬ ∀ p ∈ file.phdrs.filter Elf64Phdr.isLoad,
        ∀ q ∈ file.phdrs.filter Elf64Phdr.isLoad, p.wrappedEnd ≤ pageFloor q.vaddr.toNat := by
      intro hall
      have h₁ := hall last hlast first hfirst
      simp only [pageCeil, pageFloor] at hbelow h₁
      omega
    rw [or_iff_right hnot]
    constructor
    · intro hin p hp hfs _
      have h₁ := hin p hp hfs
      refine ⟨last, hlast, ?_⟩
      simp only [pageCeil, pageFloor] at h₁ ⊢
      omega
    · intro hin p hp hfs
      have h₃ := hsz p hp
      by_cases hwrap : 2 ^ 64 ≤ p.vaddr.toNat + p.memsz.toNat
      · obtain ⟨q, hq, hle⟩ := hin p hp hfs hwrap
        have h₂ := hhigh q hq
        simp only [pageCeil, pageFloor] at hle ⊢
        omega
      · have h₂ := hhigh p hp
        have hexact : p.wrappedEnd = p.vaddr.toNat + p.memsz.toNat :=
          Nat.mod_eq_of_lt (by omega)
        simp only [pageCeil, pageFloor]
        omega

namespace Sample

/-- A `PT_LOAD` of the first 176 bytes of the file. -/
def load (vaddr memsz : ℕ) : List Byte :=
  leBytes 4 1 ++ leBytes 4 4 ++ leBytes 8 0 ++ leBytes 8 vaddr ++ leBytes 8 vaddr ++
    leBytes 8 176 ++ leBytes 8 memsz ++ leBytes 8 4096

/-- A shared object with two `PT_LOAD`s and nothing else. -/
def twoLoads (a b : List Byte) : ELFFile where
  size := 176
  bytes i := ([0x7f, 0x45, 0x4c, 0x46, 2, 1, 1] ++ List.replicate 9 0 ++ leBytes 2 3 ++
    leBytes 2 62 ++ leBytes 4 1 ++ leBytes 8 0 ++ leBytes 8 64 ++ leBytes 8 0 ++ leBytes 4 0 ++
    leBytes 2 64 ++ leBytes 2 56 ++ leBytes 2 2 ++ leBytes 6 0 ++ a ++ b).getD i 0
  size_lt := by norm_num

/-- Reservations go to one free place; any fixed mapping is made. -/
def mmap : Mmap where
  reserve span := if span = 0 then .error "Invalid argument"
    else if 2 ^ 40 < span.toNat then .error "Cannot allocate memory" else .ok 0x7f0000000000
  fixed _ len _ := if len = 0 then .error "Invalid argument" else .ok ()
  reserve_pos span image h := by
    rintro rfl
    simp at h
  reserve_aligned span image h := by
    split_ifs at h
    cases h
    rfl
  reserve_fits span image h := by
    split_ifs at h with hz hbig
    cases h
    simp only [BitVec.ofNat_eq_ofNat, BitVec.toNat_ofNat]
    omega

/-- An ordinary object: text at 0x1000, data at 0x3000. -/
def plainImage : LoadedImage :=
  ⟨[⟨⟨0x1000, 176, false⟩, 0x1000, 0⟩, ⟨⟨0x3000, 176, false⟩, 0x2000, 0⟩],
    0x7f0000000000, 0x4000, 0x7effffff_f000, 0,
    [⟨0x7f0000000000, 0x1000, 0⟩, ⟨0x7f0000002000, 0x1000, 0⟩]⟩

/-- An object whose second segment runs over the end of the address space. -/
def wrappedImage : LoadedImage :=
  ⟨[⟨⟨0x1000, 176, false⟩, 0x1000, 0⟩, ⟨⟨0xfffffffffffff000, 176, false⟩, 0x2000, 0⟩],
    0x7f0000000000, 0x1000, 0x7effffff_f000, 0,
    [⟨0x7f0000000000, 0x1000, 0⟩, ⟨0x7effffffe000, 0x1000, 0⟩]⟩

end Sample

theorem mappings_inside_of_plain :
    (∀ m ∈ Sample.plainImage.mappings, m.Inside Sample.plainImage) ∧
      EndsReserved ((Sample.twoLoads (Sample.load 0x1000 0x1000)
        (Sample.load 0x3000 0x2000)).phdrs.filter Elf64Phdr.isLoad) := by
  have hends : EndsReserved ((Sample.twoLoads (Sample.load 0x1000 0x1000)
      (Sample.load 0x3000 0x2000)).phdrs.filter Elf64Phdr.isLoad) := by
    apply Or.inr
    decide
  exact ⟨(mappings_inside_iff_endsReserved Sample.mmap "a.out" _ _ rfl).mpr hends, hends⟩

/-- The end of the second segment wraps to 0x1000, so the reservation holds one page only, and
that segment's file contents replace the page two pages below it. -/
theorem mapping_below_reservation :
    openImage Sample.mmap "a.out" (Sample.twoLoads (Sample.load 0x1000 0x1000)
      (Sample.load 0xfffffffffffff000 0x2000)) = .ok Sample.wrappedImage ∧
    ∃ m ∈ Sample.wrappedImage.mappings, ¬ m.Inside Sample.wrappedImage ∧
      m.target.toNat + m.len.toNat < Sample.wrappedImage.image.toNat := by
  refine ⟨rfl, ⟨0x7effffffe000, 0x1000, 0⟩, by simp [Sample.wrappedImage], ?_, by decide⟩
  rintro ⟨hlo, -⟩
  exact absurd hlo (by decide)

end UnwindCheck
